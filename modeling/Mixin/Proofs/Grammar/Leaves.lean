import Mixin.Proofs.Acceptance
import Mixin.Proofs.Grammar.Reading

/-!
# Nothing is lost

The leaves of a syntax tree are its names, operators, signs of variance and literals. Read off from
left to right, they are the tokens that carry information, one for one, with their places
(`Program.ofTokens_keeps_words`): reading drops no such token, invents none, and passes over no
token that the grammar does not know.
-/

namespace Mixin

open Spelling

/-! ### Leaves -/

/-- A part of a program that stands in a token of its own. -/
inductive Leaf where
  /-- A name of a type, of a field, of something local, or of what is referred to. -/
  | name (id : Ident)
  /-- A name of a method or of something selected, which may be an operator. -/
  | member (id : Ident)
  /-- An operator before an operand or between two. -/
  | operator (id : Ident)
  /-- The sign of a variance. -/
  | sign (v : Variance)
  | int (value : Nat) (span : Span)
  | float (value : Binary64) (span : Span)
  | string (value : String) (span : Span)
  | char (value : Char) (span : Span)
  | bool (value : Bool) (span : Span)
  | null (span : Span)

/-- Whether tokens of this kind are leaves: names, operators and literals. -/
def TokenKind.isInformative (kind : TokenKind) : Bool :=
  kind.isVaried || kind == .kwTrue || kind == .kwFalse || kind == .kwNull

/-- Kinds of token that stand in no program. -/
def TokenKind.foreign : List TokenKind := [.error, .underscore, .hash, .atSign, .eof]

/-- Tokens of this kind only hold others together. -/
abbrev TokenKind.Separates (kind : TokenKind) : Prop :=
  kind.isInformative = false ∧ kind ∉ foreign

namespace Leaf

def Matches : Leaf → Token → Prop
  | name id, t => t.kind = .identifier ∧ id = t.ident
  | member id, t => (t.kind = .operator ∨ t.kind = .identifier) ∧ id = t.ident
  | operator id, t => t.kind = .operator ∧ id = t.ident
  | sign v, t => t.kind = .operator ∧ t.lexeme = v.sigil
  | int value span, t =>
    t.kind = .intLiteral ∧ Literal.int? t.lexeme = some value ∧ span = t.span
  | float value span, t =>
    t.kind = .floatLiteral ∧ value = .ofLiteral t.lexeme ∧ span = t.span
  | string value span, t =>
    t.kind = .stringLiteral ∧ Literal.string? t.lexeme = some value ∧ span = t.span
  | char value span, t =>
    t.kind = .charLiteral ∧ Literal.char? t.lexeme = some value ∧ span = t.span
  | bool value span, t => t.kind = (if value then .kwTrue else .kwFalse) ∧ span = t.span
  | null span, t => t.kind = .kwNull ∧ span = t.span

theorem Matches.informative {l : Leaf} {t : Token} (h : l.Matches t) :
    t.kind.isInformative = true ∧ t.kind ∉ TokenKind.foreign := by
  cases l with
  | member => rcases h.1 with hkind | hkind <;> rw [hkind] <;> decide
  | bool value =>
    cases value
    · rw [show t.kind = .kwFalse from h.1]
      decide
    · rw [show t.kind = .kwTrue from h.1]
      decide
  | _ =>
    rw [h.1]
    decide

end Leaf

/-! ### Walks from left to right -/

mutual

def TypeExpr.leaves : TypeExpr → List Leaf
  | .named name arguments _ => .name name :: leavesOfAll arguments
  | .function parameters result _ => leavesOfAll parameters ++ result.leaves
  | .tuple elements _ => leavesOfAll elements

def TypeExpr.leavesOfAll : List TypeExpr → List Leaf
  | [] => []
  | type :: rest => type.leaves ++ leavesOfAll rest

end

def TypeExpr.leavesOf? (type : Option TypeExpr) : List Leaf := type.toList.flatMap leaves

def Binder.leaves (b : Binder) : List Leaf := .name b.name :: TypeExpr.leavesOf? b.type

mutual

def Expr.leaves : Expr → List Leaf
  | .int value span => [.int value span]
  | .float value span => [.float value span]
  | .bool value span => [.bool value span]
  | .char value span => [.char value span]
  | .string value span => [.string value span]
  | .null span => [.null span]
  | .unit _ => []
  | .this _ => []
  | .reference name => [.name name]
  | .select receiver name _ => receiver.leaves ++ [.member name]
  | .call callee arguments _ => callee.leaves ++ Expr.leavesOfAll arguments
  | .create type arguments _ => type.toTypeExpr.leaves ++ Expr.leavesOfAll arguments
  | .unary operator operand _ => .operator operator :: operand.leaves
  | .binary operator lhs rhs _ => lhs.leaves ++ .operator operator :: rhs.leaves
  | .assign target value _ => target.leaves ++ value.leaves
  | .ifThen condition consequent _ => condition.leaves ++ consequent.leaves
  | .ifElse condition consequent alternative _ =>
    condition.leaves ++ (consequent.leaves ++ alternative.leaves)
  | .loop condition body _ => condition.leaves ++ body.leaves
  | .closure parameters body _ => parameters.flatMap Binder.leaves ++ body.leaves
  | .block statements _ => Expr.leavesOfStatements statements

def Expr.leavesOfAll : List Expr → List Leaf
  | [] => []
  | e :: rest => e.leaves ++ Expr.leavesOfAll rest

def Stmt.leaves : Stmt → List Leaf
  | .define _ name type initializer _ =>
    .name name :: (TypeExpr.leavesOf? type ++ initializer.leaves)
  | .eval e => e.leaves

def Expr.leavesOfStatements : List Stmt → List Leaf
  | [] => []
  | s :: rest => s.leaves ++ Expr.leavesOfStatements rest

end

def Variance.leaves : Variance → List Leaf
  | invariant => []
  | v => [.sign v]

def TypeParameter.leaves (p : TypeParameter) : List Leaf :=
  p.variance.leaves ++ .name p.name :: TypeExpr.leavesOf? p.bound

def Parameter.leaves (p : Parameter) : List Leaf :=
  .name p.name :: (p.type.leaves ++ p.default.toList.flatMap Expr.leaves)

def Parent.leaves (p : Parent) : List Leaf :=
  p.type.toTypeExpr.leaves ++ p.arguments.flatMap Expr.leaves

def Initializer.leaves : Initializer → List Leaf
  | given value => value.leaves
  | omitted _ => []

def Field.leaves (f : Field) : List Leaf :=
  .name f.name :: (TypeExpr.leavesOf? f.type ++ f.initializer.leaves)

def Method.leaves (m : Method) : List Leaf :=
  .member m.name :: (m.typeParameters.flatMap TypeParameter.leaves ++
    (m.clauses.flatMap (List.flatMap Parameter.leaves) ++
      (TypeExpr.leavesOf? m.result ++ m.body.toList.flatMap Expr.leaves)))

def Member.leaves : Member → List Leaf
  | field f => f.leaves
  | method m => m.leaves

def TypeDef.leaves (d : TypeDef) : List Leaf :=
  .name d.name :: (d.typeParameters.flatMap TypeParameter.leaves ++
    (d.parameters.flatMap Parameter.leaves ++
      (d.parents.flatMap Parent.leaves ++ d.members.flatMap Member.leaves)))

def Program.leaves (p : Program) : List Leaf := p.definitions.flatMap TypeDef.leaves

theorem TypeExpr.leavesOfAll_eq (types : List TypeExpr) :
    leavesOfAll types = types.flatMap leaves := by
  induction types with
  | nil => rfl
  | cons type rest ih => rw [leavesOfAll, ih, List.flatMap_cons]

theorem Expr.leavesOfAll_eq (es : List Expr) : leavesOfAll es = es.flatMap leaves := by
  induction es with
  | nil => rfl
  | cons e rest ih => rw [leavesOfAll, ih, List.flatMap_cons]

theorem Expr.leavesOfStatements_eq (ss : List Stmt) :
    leavesOfStatements ss = ss.flatMap Stmt.leaves := by
  induction ss with
  | nil => rfl
  | cons s rest ih => rw [leavesOfStatements, ih, List.flatMap_cons]

/-! ### Tokens that bear leaves -/

namespace Spelling

/-- The tokens that carry information are the leaves, one for one, and the grammar knows all
tokens. -/
structure Bears (ts : List Token) (ls : List Leaf) : Prop where
  leaves : List.Forall₂ Leaf.Matches ls (ts.filter fun t => t.kind.isInformative)
  known : ∀ t ∈ ts, t.kind ∉ TokenKind.foreign

namespace Bears

variable {ts us : List Token} {ls ks : List Leaf} {t : Token}

theorem nil : Bears [] [] := ⟨.nil, by simp⟩

theorem append (h : Bears ts ls) (h' : Bears us ks) : Bears (ts ++ us) (ls ++ ks) where
  leaves := by
    rw [List.filter_append]
    exact List.rel_append h.leaves h'.leaves
  known := by
    intro t ht
    rcases List.mem_append.mp ht with ht | ht
    · exact h.known t ht
    · exact h'.known t ht

theorem leaf {l : Leaf} (hl : l.Matches t) (h : Bears ts ls) : Bears (t :: ts) (l :: ls) where
  leaves := by
    rw [List.filter_cons_of_pos (by simpa using hl.informative.1)]
    exact .cons hl h.leaves
  known := by
    intro u hu
    rcases List.mem_cons.mp hu with rfl | hu
    · exact hl.informative.2
    · exact h.known u hu

theorem plain {kind : TokenKind} (ht : t.kind = kind) (hkind : kind.Separates)
    (h : Bears ts ls) : Bears (t :: ts) ls where
  leaves := by
    rw [List.filter_cons_of_neg (by simp [ht, hkind.1])]
    exact h.leaves
  known := by
    intro u hu
    rcases List.mem_cons.mp hu with rfl | hu
    · rw [ht]
      exact hkind.2
    · exact h.known u hu

theorem semicolons (hts : ∀ t ∈ ts, t.kind = .semicolon) : Bears ts [] := by
  induction ts with
  | nil => exact nil
  | cons t ts ih =>
    have hrest := ih fun u hu => hts u (List.mem_cons_of_mem _ hu)
    exact plain (hts t (List.mem_cons_self ..)) (by decide) hrest

end Bears

theorem separates_binding (b : Binding) : (TokenKind.binding b).Separates := by
  cases b <;> decide

theorem separates_modifier (m : Modifier) : (TokenKind.modifier m).Separates := by
  cases m <;> decide

theorem separates_typeKind (k : TypeKind) : (TokenKind.typeKind k).Separates := by
  cases k <;> decide

/-! ### Shapes -/

section Shapes

variable {α : Type} {R : Spelling α} {f : α → List Leaf} {ts : List Token}

theorem Headed.bears {kind : TokenKind} {a : α} (h : Headed kind R ts a)
    (hkind : kind.Separates) (hR : ∀ us a, R us a → Bears us (f a)) : Bears ts (f a) := by
  obtain ⟨ht, ha⟩ := h
  exact .plain ht hkind (hR _ _ ha)

theorem Behind.bears {kind : TokenKind} {a? : Option α} (h : Behind kind R ts a?)
    (hkind : kind.Separates) (hR : ∀ us a, R us a → Bears us (f a)) :
    Bears ts (a?.toList.flatMap f) := by
  cases h with
  | absent => exact .nil
  | present h =>
    rw [Option.toList_some, List.flatMap_singleton]
    exact h.bears hkind hR

theorem Between.bears {left right : TokenKind} {a : α} (h : Between left right R ts a)
    (hleft : left.Separates) (hright : right.Separates)
    (hR : ∀ us a, R us a → Bears us (f a)) : Bears ts (f a) := by
  obtain ⟨hl, ha, hr⟩ := h
  have hinside := (hR _ _ ha).append (.plain hr hright .nil)
  rw [List.append_nil] at hinside
  exact .plain hl hleft hinside

theorem Omissible.bears {S : Spelling (List α)} {as : List α} (h : Omissible S ts as)
    (hS : ∀ us as, S us as → Bears us (as.flatMap f)) : Bears ts (as.flatMap f) := by
  cases h with
  | absent => exact .nil
  | present h => exact hS _ _ h

theorem Listed.bears {as : List α} (h : Listed R ts as) (hR : ∀ us a, R us a → Bears us (f a)) :
    Bears ts (as.flatMap f) := by
  induction h with
  | one ha =>
    rw [List.flatMap_singleton]
    exact hR _ _ ha
  | more ha ht _ ih =>
    rw [List.flatMap_cons]
    exact (hR _ _ ha).append (.plain ht (by decide) ih)

theorem Chained.bears {as : List α} (h : Chained R ts as) (hR : ∀ us a, R us a → Bears us (f a)) :
    Bears ts (as.flatMap f) := by
  induction h with
  | nil => exact .nil
  | cons ha _ ih =>
    rw [List.flatMap_cons]
    exact (hR _ _ ha).append ih

theorem Closed.bears {as : List α} (h : Closed R ts as) (hR : ∀ us a, R us a → Bears us (f a)) :
    Bears ts (as.flatMap f) := by
  induction h with
  | nil hss hr => exact (Bears.semicolons hss).append (.plain hr (by decide) .nil)
  | cons hss ha _ ih =>
    rw [List.flatMap_cons]
    exact (Bears.semicolons hss).append ((hR _ _ ha).append ih)

theorem Enclosed.bears {as : List α} (h : Enclosed R ts as)
    (hR : ∀ us a, R us a → Bears us (f a)) : Bears ts (as.flatMap f) :=
  Between.bears h (by decide) (by decide) fun _ _ has => has.bears fun _ _ has => has.bears hR

theorem Bracketed.bears {as : List α} (h : Bracketed R ts as)
    (hR : ∀ us a, R us a → Bears us (f a)) : Bears ts (as.flatMap f) :=
  Omissible.bears h fun _ _ has => has.bears (by decide) (by decide) fun _ _ has => has.bears hR

theorem Braced.bears {as : List α} (h : Braced R ts as)
    (hR : ∀ us a, R us a → Bears us (f a)) : Bears ts (as.flatMap f) :=
  Headed.bears h (by decide) fun _ _ has => has.bears hR

end Shapes

/-! ### Types and expressions -/

variable {ts : List Token}

theorem OfNamed.bears {R : Spelling TypeExpr} {n : NamedType} (h : OfNamed R ts n)
    (hR : ∀ us a, R us a → Bears us a.leaves) :
    Bears ts n.toTypeExpr.leaves := by
  obtain ⟨ht, has⟩ := h
  rw [NamedType.toTypeExpr, TypeExpr.leaves, TypeExpr.leavesOfAll_eq]
  exact .leaf ⟨ht, rfl⟩ (Bracketed.bears has hR)

theorem OfType.bears {a : TypeExpr} (h : OfType ts a) : Bears ts a.leaves := by
  induction h with
  | named _ hn ih => exact hn.bears ih
  | arrow _ hn ht _ ih ihr =>
    rw [TypeExpr.leaves, TypeExpr.leavesOfAll_eq, List.flatMap_singleton]
    exact (hn.bears ih).append (.plain ht (by decide) ihr)
  | function _ has ht _ ih ihr =>
    rw [TypeExpr.leaves, TypeExpr.leavesOfAll_eq]
    exact (Enclosed.bears has ih).append (.plain ht (by decide) ihr)
  | group _ has ih =>
    have h := Enclosed.bears has ih
    rw [List.flatMap_singleton] at h
    exact h
  | tuple _ has _ ih =>
    rw [TypeExpr.leaves, TypeExpr.leavesOfAll_eq]
    exact Enclosed.bears has ih

theorem bears_type? {kind : TokenKind} {type : Option TypeExpr} (h : Behind kind OfType ts type)
    (hkind : kind.Separates) :
    Bears ts (TypeExpr.leavesOf? type) :=
  h.bears hkind fun _ _ ha => ha.bears

theorem OfBinder.bears {b : Binder} (h : OfBinder ts b) : Bears ts b.leaves := by
  obtain ⟨ht, htype⟩ := h
  exact .leaf ⟨ht, rfl⟩ (bears_type? htype (by decide))

theorem OfBinders.bears {bs : List Binder} (h : OfBinders ts bs) :
    Bears ts (bs.flatMap Binder.leaves) := by
  cases h with
  | single hb =>
    rw [List.flatMap_singleton]
    exact hb.bears
  | several hbs => exact Enclosed.bears hbs fun _ _ hb => hb.bears

theorem OfStmt.bears {R : Spelling Expr} {s : Stmt} (h : OfStmt R ts s)
    (hR : ∀ us e, R us e → Bears us e.leaves) : Bears ts s.leaves := by
  cases h with
  | define hw ht htype hq he =>
    rw [Stmt.leaves]
    have hvalue := (bears_type? htype (by decide)).append (.plain hq (by decide) (hR _ _ he))
    exact .plain hw (separates_binding _) (.leaf ⟨ht, rfl⟩ hvalue)
  | eval he =>
    rw [Stmt.leaves]
    exact hR _ _ he

theorem bears_literal {t : Token} {e : Expr} (h : Literal.expr? t = some e) :
    Bears [t] e.leaves := by
  cases hkind : t.kind <;> simp only [Literal.expr?, hkind, reduceCtorEq] at h
  case intLiteral =>
    obtain ⟨value, hvalue, rfl⟩ := Option.map_eq_some_iff.mp h
    exact .leaf ⟨hkind, hvalue, rfl⟩ .nil
  case floatLiteral =>
    obtain rfl := Option.some.inj h
    exact .leaf ⟨hkind, rfl, rfl⟩ .nil
  case stringLiteral =>
    obtain ⟨value, hvalue, rfl⟩ := Option.map_eq_some_iff.mp h
    exact .leaf ⟨hkind, hvalue, rfl⟩ .nil
  case charLiteral =>
    obtain ⟨value, hvalue, rfl⟩ := Option.map_eq_some_iff.mp h
    exact .leaf ⟨hkind, hvalue, rfl⟩ .nil

theorem bears_constant {t : Token} {e : Expr} (h : t.constant? = some e) : Bears [t] e.leaves := by
  cases hkind : t.kind <;> simp only [Token.constant?, hkind, reduceCtorEq] at h
  case kwTrue =>
    obtain rfl := Option.some.inj h
    exact .leaf ⟨hkind, rfl⟩ .nil
  case kwFalse =>
    obtain rfl := Option.some.inj h
    exact .leaf ⟨hkind, rfl⟩ .nil
  case kwNull =>
    obtain rfl := Option.some.inj h
    exact .leaf ⟨hkind, rfl⟩ .nil
  case kwThis =>
    obtain rfl := Option.some.inj h
    exact .plain hkind (by decide) .nil

theorem OfExpr.bears {e : Expr} (h : OfExpr ts e) : Bears ts e.leaves := by
  induction h with
  | literal h => exact bears_literal h
  | constant h => exact bears_constant h
  | reference ht => exact .leaf ⟨ht, rfl⟩ .nil
  | unit hl hr => exact .plain hl (by decide) (.plain hr (by decide) .nil)
  | group hl _ hr ih =>
    have h := ih.append (.plain hr (by decide) .nil)
    rw [List.append_nil] at h
    exact .plain hl (by decide) h
  | block _ hss ih =>
    rw [Expr.leaves, Expr.leavesOfStatements_eq]
    exact Braced.bears hss fun _ _ hs => hs.bears ih
  | create _ hw hn has ih =>
    rw [Expr.leaves, Expr.leavesOfAll_eq]
    have htype := hn.bears fun _ _ ha => ha.bears
    have harguments := has.bears fun _ _ has => Enclosed.bears has ih
    exact .plain hw (by decide) (htype.append harguments)
  | select _ hd ht ih =>
    rw [Expr.leaves]
    exact ih.append (.plain hd (by decide) (.leaf ⟨ht, rfl⟩ .nil))
  | call _ _ has ihe ih =>
    rw [Expr.leaves, Expr.leavesOfAll_eq]
    exact ihe.append (Enclosed.bears has ih)
  | unary ht _ _ ih => exact .leaf ⟨ht, rfl⟩ ih
  | binary _ ht _ iha ihb => exact iha.append (.leaf ⟨ht, rfl⟩ ihb)
  | assign _ ht _ iha ihb => exact iha.append (.plain ht (by decide) ihb)
  | ifThen hw hl _ hr _ iha ihb =>
    have hbranch := Bears.plain hr (by decide) ihb
    exact .plain hw (by decide) (.plain hl (by decide) (iha.append hbranch))
  | ifElse hw hl _ hr _ ht _ iha ihb ihd =>
    have hbranches := Bears.plain hr (by decide) (ihb.append (.plain ht (by decide) ihd))
    exact .plain hw (by decide) (.plain hl (by decide) (iha.append hbranches))
  | loop hw hl _ hr _ iha ihb =>
    have hbody := Bears.plain hr (by decide) ihb
    exact .plain hw (by decide) (.plain hl (by decide) (iha.append hbody))
  | closure hbs ht _ ih => exact hbs.bears.append (.plain ht (by decide) ih)

theorem bears_expr? {kind : TokenKind} {e? : Option Expr} (h : Behind kind OfExpr ts e?)
    (hkind : kind.Separates) :
    Bears ts (e?.toList.flatMap Expr.leaves) :=
  h.bears hkind fun _ _ he => he.bears

/-! ### Definitions -/

theorem OfModifiers.bears {ms : ModifierList} (h : OfModifiers ts ms) : Bears ts [] := by
  obtain ⟨written⟩ := ms
  induction ts generalizing written with
  | nil => exact .nil
  | cons t ts ih =>
    cases written with
    | nil => cases h
    | cons w ws =>
      obtain ⟨hhead, htail⟩ := List.cons.inj h
      exact .plain (congrArg Prod.fst hhead) (separates_modifier w.1) (ih ws htail)

theorem OfVariance.bears {v : Variance} (h : OfVariance ts v) : Bears ts v.leaves := by
  cases h with
  | invariant => exact .nil
  | covariant ht hlexeme => exact .leaf ⟨ht, hlexeme⟩ .nil
  | contravariant ht hlexeme => exact .leaf ⟨ht, hlexeme⟩ .nil

theorem OfTypeParameter.bears {p : TypeParameter} (h : OfTypeParameter ts p) :
    Bears ts p.leaves := by
  obtain ⟨hv, ht, hbound⟩ := h
  exact hv.bears.append (.leaf ⟨ht, rfl⟩ (bears_type? hbound (by decide)))

theorem OfBinding.bears {isCase : Bool} {b : Option Binding} (h : OfBinding isCase ts b) :
    Bears ts [] := by
  cases h with
  | written ht => exact .plain ht (separates_binding _) .nil
  | absent => exact .nil

theorem Unbound.bears {b : Option Binding} (h : Unbound ts b) : Bears ts [] := by
  cases h
  exact .nil

theorem OfParameter.bears {rejected : ModifierSet} {B : Spelling (Option Binding)} {p : Parameter}
    (h : OfParameter rejected B ts p)
    (hB : ∀ us b, B us b → Bears us []) : Bears ts p.leaves := by
  obtain ⟨hms, -, hb, ht, hk, htype, hdefault⟩ := h
  have htail := htype.bears.append (bears_expr? hdefault (by decide))
  have hname := Bears.leaf (l := .name _) ⟨ht, rfl⟩ (.plain hk (by decide) htail)
  exact hms.bears.append ((hB _ _ hb).append hname)

theorem OfParent.bears {p : Parent} (h : OfParent ts p) : Bears ts p.leaves := by
  obtain ⟨hn, has⟩ := h
  have harguments := has.bears fun _ _ has => Enclosed.bears has fun _ _ he => he.bears
  exact (hn.bears fun _ _ ha => ha.bears).append harguments

theorem OfParents.bears {ps : List Parent} (h : OfParents ts ps) :
    Bears ts (ps.flatMap Parent.leaves) := by
  cases h with
  | none => exact .nil
  | some hp hps =>
    rw [List.flatMap_cons]
    have hfirst := hp.bears (by decide) fun _ _ hp => hp.bears
    have hothers := hps.bears fun _ _ hp => hp.bears (by decide) fun _ _ hp => OfParent.bears hp
    exact hfirst.append hothers

theorem OfClassParameters.bears {isCase : Bool} {kind : TypeKind} {ps : List Parameter}
    (h : OfClassParameters isCase kind ts ps) :
    Bears ts (ps.flatMap Parameter.leaves) := by
  cases h with
  | absent => exact .nil
  | present hps => exact Enclosed.bears hps fun _ _ hp => hp.bears fun _ _ hb => hb.bears

theorem OfInitializer.bears {last : Span} {i : Initializer} (h : OfInitializer last ts i) :
    Bears ts i.leaves := by
  cases h with
  | given he => exact he.bears (by decide) fun _ _ he => he.bears
  | omitted => exact .nil

theorem OfBody.bears {body : Option Expr} (h : OfBody ts body) :
    Bears ts (body.toList.flatMap Expr.leaves) := by
  cases h with
  | absent => exact .nil
  | value he =>
    rw [Option.toList_some, List.flatMap_singleton]
    exact he.bears (by decide) fun _ _ he => he.bears
  | block hss =>
    rw [Option.toList_some, List.flatMap_singleton]
    exact (OfExpr.block (fun _ _ h => h) hss).bears

theorem OfField.bears {f : Field} (h : OfField ts f) : Bears ts f.leaves := by
  obtain ⟨hms, -, -, hw, ht, htype, hinit⟩ := h
  have htail := (bears_type? htype (by decide)).append hinit.bears
  have hname := Bears.leaf (l := .name _) ⟨ht, rfl⟩ htail
  exact hms.bears.append (.plain hw (separates_binding _) hname)

theorem OfMethod.bears {m : Method} (h : OfMethod ts m) : Bears ts m.leaves := by
  obtain ⟨hms, -, -, hw, ht, htps, hcs, hresult, hbody⟩ := h
  have htypes := Bracketed.bears htps fun _ _ hp => hp.bears
  have hclauses := hcs.bears fun _ _ hps => Enclosed.bears hps fun _ _ hp =>
    hp.bears fun _ _ hb => hb.bears
  have htail := htypes.append (hclauses.append
    ((bears_type? hresult (by decide)).append hbody.bears))
  have hname := Bears.leaf (l := .member _) ⟨ht, rfl⟩ htail
  exact hms.bears.append (.plain hw (by decide) hname)

theorem OfMember.bears {m : Member} (h : OfMember ts m) : Bears ts m.leaves := by
  cases h with
  | field hf => exact hf.bears
  | method hm => exact hm.bears

theorem OfTypeDef.bears {d : TypeDef} (h : OfTypeDef ts d) : Bears ts d.leaves := by
  obtain ⟨hms, hw, -, ht, htps, hps, hparents, hmembers⟩ := h
  have htypes := Bracketed.bears htps fun _ _ hp => hp.bears
  have hbody := hmembers.bears fun _ _ hms => Braced.bears hms fun _ _ hm => hm.bears
  have htail := htypes.append (hps.bears.append (hparents.bears.append hbody))
  have hname := Bears.leaf (l := .name _) ⟨ht, rfl⟩ htail
  exact hms.bears.append (.plain hw (separates_typeKind _) hname)

theorem OfDefinitions.bears {ds : List TypeDef} (h : OfDefinitions ts ds) :
    Bears ts (ds.flatMap TypeDef.leaves) := by
  induction h with
  | nil hss => exact .semicolons hss
  | cons hss hd _ ih =>
    rw [List.flatMap_cons]
    exact (Bears.semicolons hss).append (hd.bears.append ih)

end Spelling

/-! ### Programs -/

def TokenStream.words (stream : TokenStream) : List Token :=
  stream.tokens.takeWhile fun t => t.kind != .eof

theorem TokenStream.words_eq {stream : TokenStream} {ts : List Token} {d : Cursor}
    (h : (Cursor.ofStream stream).Passes ts d) (hend : d.isAt .eof = true)
    (hts : ∀ t ∈ ts, t.kind ≠ .eof) : stream.words = ts := by
  have hall : ∀ t ∈ ts, (t.kind != .eof) = true := fun t ht => by simpa using hts t ht
  have hahead : stream.tokens = ts ++ d.ahead := h.ahead
  rw [words, hahead, List.takeWhile_append_of_pos hall]
  cases hd : d.ahead with
  | nil => simp
  | cons t rest =>
    have hkind : t.kind = .eof := by simpa [Cursor.isAt, Cursor.peek, hd] using hend
    simp [hkind]

/-- A program that is read is spelled by all tokens of its text. The names, operators and literals
among them are the leaves of the program from left to right, and none of the others is of a kind
that stands in no program. -/
theorem Program.ofTokens_keeps_words {stream : TokenStream} {p : Program}
    (hfinal : stream.final.kind = .eof) (h : ofTokens stream = .ok p) :
    OfDefinitions stream.words p.definitions ∧
      List.Forall₂ Leaf.Matches p.leaves (stream.words.filter fun t => t.kind.isInformative) ∧
      ∀ t ∈ stream.words, t.kind ∉ [.error, .underscore, .hash, .atSign] := by
  obtain ⟨ts, d, hts, hend, hds⟩ := spells_ofTokens hfinal h
  have hbears := hds.bears
  have hwords : stream.words = ts := by
    refine TokenStream.words_eq hts hend fun t ht hkind => hbears.known t ht ?_
    rw [hkind]
    decide
  rw [hwords]
  refine ⟨hds, hbears.leaves, fun t ht hmem => hbears.known t ht ?_⟩
  simp only [TokenKind.foreign, List.mem_cons, List.not_mem_nil, or_false] at hmem ⊢
  tauto

theorem Program.ofTokens_keeps_words_signed :
    ∃ stream p, stream = TokenStream.ofText .user
        "trait T[+A] \x7b def +(x: A): A = -x.y(2) * x; def - = \"s\" \x7d" ∧
      stream.final.kind = .eof ∧ ofTokens stream = .ok p ∧
      OfDefinitions stream.words p.definitions ∧
      List.Forall₂ Leaf.Matches p.leaves (stream.words.filter fun t => t.kind.isInformative) ∧
      ∀ t ∈ stream.words, t.kind ∉ [.error, .underscore, .hash, .atSign] := by
  have hok : (ofText .user
      "trait T[+A] \x7b def +(x: A): A = -x.y(2) * x; def - = \"s\" \x7d").toBool = true := by
    decide +kernel
  obtain ⟨p, hp⟩ := exists_program_of_toBool hok
  have hfinal := (TokenStream.scannedFrom .user Location.start
    "trait T[+A] \x7b def +(x: A): A = -x.y(2) * x; def - = \"s\" \x7d".toList).final
  exact ⟨_, p, rfl, hfinal, hp, ofTokens_keeps_words hfinal hp⟩

end Mixin
