import Mixin.Grammar.Definition

/-!
# The grammar

Which tokens spell which part of a program, without regard to how they are read. A `Spelling`
relates tokens to what they spell. Shapes that occur in many places (lists, brackets, optional
parts) are relations between spellings; types, expressions and definitions are built from them, each
node with the span it gets.

In the rules for types and expressions the nested spellings are a relation `R` that implies the one
being defined, so that induction over these rules gives a hypothesis for every nested part, also for
those inside shapes.
-/

namespace Mixin

def Token.ident (t : Token) : Ident := ⟨t.lexeme, t.span⟩

def Token.constant? (t : Token) : Option Expr :=
  match t.kind with
  | .kwTrue => some (.bool true t.span)
  | .kwFalse => some (.bool false t.span)
  | .kwNull => some (.null t.span)
  | .kwThis => some (.this t.span)
  | _ => none

/-- Which tokens spell what. -/
abbrev Spelling (α : Type) := List Token → α → Prop

namespace Spelling

variable {α : Type}

/-! ### Extents -/

def firstSpan (ts : List Token) : Span := (ts.head?.map Token.span).getD default

def lastSpan (ts : List Token) : Span := (ts.getLast?.map Token.span).getD default

def extent (ts : List Token) : Span := (firstSpan ts).through (lastSpan ts)

@[simp] theorem firstSpan_cons (t : Token) (ts : List Token) : firstSpan (t :: ts) = t.span := rfl

/-! ### Shapes -/

inductive Headed (kind : TokenKind) (R : Spelling α) : Spelling α
  | intro {t ts a} (ht : t.kind = kind) (ha : R ts a) : Headed kind R (t :: ts) a

/-- Behind a token of the given kind, or left out. -/
inductive Behind (kind : TokenKind) (R : Spelling α) : Spelling (Option α)
  | absent : Behind kind R [] none
  | present {ts a} (h : Headed kind R ts a) : Behind kind R ts (some a)

inductive Between (left right : TokenKind) (R : Spelling α) : Spelling α
  | intro {l ts r a} (hl : l.kind = left) (ha : R ts a) (hr : r.kind = right) :
    Between left right R (l :: (ts ++ [r])) a

/-- No items, which are spelled by nothing, or some. -/
inductive Omissible (R : Spelling (List α)) : Spelling (List α)
  | absent : Omissible R [] []
  | present {ts as} (h : R ts as) : Omissible R ts as

/-- One item or more with commas between them. -/
inductive Listed (R : Spelling α) : Spelling (List α)
  | one {ts a} (ha : R ts a) : Listed R ts [a]
  | more {ts a t us as} (ha : R ts a) (ht : t.kind = .comma) (has : Listed R us as) :
    Listed R (ts ++ t :: us) (a :: as)

inductive Chained (R : Spelling α) : Spelling (List α)
  | nil : Chained R [] []
  | cons {ts a us as} (ha : R ts a) (has : Chained R us as) : Chained R (ts ++ us) (a :: as)

/-- Items with semicolons before them, and before the brace that closes them. -/
inductive Closed (R : Spelling α) : Spelling (List α)
  | nil {ss r} (hss : ∀ s ∈ ss, s.kind = .semicolon) (hr : r.kind = .rightBrace) :
    Closed R (ss ++ [r]) []
  | cons {ss ts a us as} (hss : ∀ s ∈ ss, s.kind = .semicolon) (ha : R ts a)
    (has : Closed R us as) : Closed R (ss ++ (ts ++ us)) (a :: as)

/-- What one round of a repetition adds to what all rounds spell. -/
inductive Round (S : Spelling (List α)) : Spelling (Option α)
  | stop {ts} (h : S ts []) : Round S ts none
  | next {ts a} (hne : ts ≠ []) (h : ∀ us as, S us as → S (ts ++ us) (a :: as)) :
    Round S ts (some a)

abbrev Enclosed (R : Spelling α) : Spelling (List α) :=
  Between .leftParen .rightParen (Omissible (Listed R))

theorem Headed.ne_nil {kind : TokenKind} {R : Spelling α} {ts : List Token} {a : α}
    (h : Headed kind R ts a) : ts ≠ [] := by
  cases h
  simp

theorem Between.ne_nil {left right : TokenKind} {R : Spelling α} {ts : List Token} {a : α}
    (h : Between left right R ts a) : ts ≠ [] := by
  cases h
  simp

abbrev Bracketed (R : Spelling α) : Spelling (List α) :=
  Omissible (Between .leftBracket .rightBracket (Listed R))

abbrev Braced (R : Spelling α) : Spelling (List α) := Headed .leftBrace (Closed R)

/-! ### Types -/

inductive OfNamed (R : Spelling TypeExpr) : Spelling NamedType
  | intro {t us as} (ht : t.kind = .identifier) (has : Bracketed R us as) :
    OfNamed R (t :: us) ⟨t.ident, as, extent (t :: us)⟩

inductive OfType : Spelling TypeExpr
  | named {R ts n} (hR : ∀ us a, R us a → OfType us a) (hn : OfNamed R ts n) :
    OfType ts n.toTypeExpr
  | arrow {R ts n t us r} (hR : ∀ us a, R us a → OfType us a) (hn : OfNamed R ts n)
    (ht : t.kind = .arrow) (hr : OfType us r) :
    OfType (ts ++ t :: us) (.function [n.toTypeExpr] r ((firstSpan ts).through r.span))
  | function {R ts as t us r} (hR : ∀ us a, R us a → OfType us a) (has : Enclosed R ts as)
    (ht : t.kind = .arrow) (hr : OfType us r) :
    OfType (ts ++ t :: us) (.function as r ((firstSpan ts).through r.span))
  | group {R ts a} (hR : ∀ us a, R us a → OfType us a) (has : Enclosed R ts [a]) : OfType ts a
  | tuple {R ts as} (hR : ∀ us a, R us a → OfType us a) (has : Enclosed R ts as)
    (hlength : as.length ≠ 1) : OfType ts (.tuple as (extent ts))

theorem OfNamed.ne_nil {R : Spelling TypeExpr} {ts : List Token} {n : NamedType}
    (h : OfNamed R ts n) : ts ≠ [] := by
  cases h
  simp

/-! ### Expressions -/

def OfModifiers : Spelling ModifierList := fun ts ms =>
  ts.map (fun t => (t.kind, t.span)) = ms.written.map fun w => (.modifier w.1, w.2)

theorem OfModifiers.eq_nil {hs : List Token} {ms : ModifierList} (h : OfModifiers hs ms)
    (hnone : ms.firstOf? ModifierSet.empty.complement = none) : hs = [] := by
  have hwritten : ms.written = [] := by
    cases hms : ms.written with
    | nil => rfl
    | cons w ws => simp [ModifierList.firstOf?, hms, ModifierSet.empty, ModifierSet.contains,
        ModifierSet.complement] at hnone
  rw [OfModifiers, hwritten] at h
  exact List.map_eq_nil_iff.mp h

/-- Parameters of closures. Modifiers are read before them, but none is admitted. -/
inductive OfBinder : Spelling Binder
  | intro {t us type} (ht : t.kind = .identifier) (htype : Behind .colon OfType us type) :
    OfBinder (t :: us) ⟨t.ident, type, extent (t :: us)⟩

inductive OfBinders : Spelling (List Binder)
  | single {ts b} (hb : OfBinder ts b) : OfBinders ts [b]
  | several {ts bs} (hbs : Enclosed OfBinder ts bs) : OfBinders ts bs

inductive OfStmt (R : Spelling Expr) : Spelling Stmt
  | define {w b t us type q vs e} (hw : w.kind = .binding b) (ht : t.kind = .identifier)
    (htype : Behind .colon OfType us type) (hq : q.kind = .equals) (he : R vs e) :
    OfStmt R (w :: t :: (us ++ q :: vs)) (.define b t.ident type e (w.span.through e.span))
  | eval {ts e} (he : R ts e) : OfStmt R ts (.eval e)

inductive OfExpr : Spelling Expr
  | literal {t e} (h : Literal.expr? t = some e) : OfExpr [t] e
  | constant {t e} (h : t.constant? = some e) : OfExpr [t] e
  | reference {t} (ht : t.kind = .identifier) : OfExpr [t] (.reference t.ident)
  | unit {l r} (hl : l.kind = .leftParen) (hr : r.kind = .rightParen) :
    OfExpr [l, r] (.unit (l.span.through r.span))
  | group {l ts r e} (hl : l.kind = .leftParen) (he : OfExpr ts e) (hr : r.kind = .rightParen) :
    OfExpr (l :: (ts ++ [r])) e
  | block {R ts ss} (hR : ∀ us e, R us e → OfExpr us e) (hss : Braced (OfStmt R) ts ss) :
    OfExpr ts (.block ss (extent ts))
  | create {R w ts n us as} (hR : ∀ us e, R us e → OfExpr us e) (hw : w.kind = .kwNew)
    (hn : OfNamed OfType ts n) (has : Omissible (Enclosed R) us as) :
    OfExpr (w :: (ts ++ us)) (.create n as (extent (w :: (ts ++ us))))
  | select {ts e d t} (he : OfExpr ts e) (hd : d.kind = .dot)
    (ht : t.kind = .operator ∨ t.kind = .identifier) :
    OfExpr (ts ++ [d, t]) (.select e t.ident (e.span.through t.span))
  | call {R ts e us as} (he : OfExpr ts e) (hR : ∀ us e, R us e → OfExpr us e)
    (has : Enclosed R us as) : OfExpr (ts ++ us) (.call e as (e.span.through (lastSpan us)))
  | unary {t ts e} (ht : t.kind = .operator) (hlexeme : t.lexeme ∈ Operator.unaryOperators)
    (he : OfExpr ts e) : OfExpr (t :: ts) (.unary t.ident e (t.span.through e.span))
  | binary {ts a t us b} (ha : OfExpr ts a) (ht : t.kind = .operator) (hb : OfExpr us b) :
    OfExpr (ts ++ t :: us) (.binary t.ident a b (a.span.through b.span))
  | assign {ts a t us b} (ha : OfExpr ts a) (ht : t.kind = .equals) (hb : OfExpr us b) :
    OfExpr (ts ++ t :: us) (.assign a b ((firstSpan ts).through b.span))
  | ifThen {w ts a us b} (hw : w.kind = .kwIf) {l r} (hl : l.kind = .leftParen)
    (ha : OfExpr ts a) (hr : r.kind = .rightParen) (hb : OfExpr us b) :
    OfExpr (w :: l :: (ts ++ r :: us)) (.ifThen a b (extent (w :: l :: (ts ++ r :: us))))
  | ifElse {w ts a us b} (hw : w.kind = .kwIf) {l r} (hl : l.kind = .leftParen)
    (ha : OfExpr ts a) (hr : r.kind = .rightParen) (hb : OfExpr us b) {t vs d}
    (ht : t.kind = .kwElse) (hd : OfExpr vs d) :
    OfExpr (w :: l :: (ts ++ r :: (us ++ t :: vs)))
      (.ifElse a b d (extent (w :: l :: (ts ++ r :: (us ++ t :: vs)))))
  | loop {w ts a us b} (hw : w.kind = .kwWhile) {l r} (hl : l.kind = .leftParen)
    (ha : OfExpr ts a) (hr : r.kind = .rightParen) (hb : OfExpr us b) :
    OfExpr (w :: l :: (ts ++ r :: us)) (.loop a b (w.span.through b.span))
  | closure {ts bs t us e} (hbs : OfBinders ts bs) (ht : t.kind = .arrow) (he : OfExpr us e) :
    OfExpr (ts ++ t :: us) (.closure bs e ((firstSpan ts).through e.span))

theorem OfExpr.ne_nil {ts : List Token} {e : Expr} (h : OfExpr ts e) : ts ≠ [] := by
  cases h with
  | block _ hss => exact hss.ne_nil
  | call _ _ has =>
    have hne := has.ne_nil
    simp [hne]
  | _ => simp

theorem OfStmt.ne_nil {ts : List Token} {s : Stmt} (h : OfStmt OfExpr ts s) : ts ≠ [] := by
  cases h with
  | define => simp
  | eval he => exact he.ne_nil

theorem OfBinder.ne_nil {ts : List Token} {b : Binder} (h : OfBinder ts b) : ts ≠ [] := by
  cases h
  simp

theorem OfBinders.ne_nil {ts : List Token} {bs : List Binder} (h : OfBinders ts bs) : ts ≠ [] := by
  cases h with
  | single hb => exact hb.ne_nil
  | several hbs => exact hbs.ne_nil

/-- Operators whose right operand is still to come, the innermost first, with their left
operands. -/
inductive OfPending : Spelling (List Operator.Pending)
  | nil : OfPending [] []
  | cons {us ps ts lhs t} (hps : OfPending us ps) (hlhs : OfExpr ts lhs) (ht : t.kind = .operator) :
    OfPending (us ++ (ts ++ [t])) ((lhs, t.ident) :: ps)

/-- Pending operators and the operand behind them. -/
def OfState : Spelling (List Operator.Pending × Expr) := fun ts state =>
  ∃ us vs, ts = us ++ vs ∧ OfPending us state.1 ∧ OfExpr vs state.2

theorem OfState.start {ts : List Token} {e : Expr} (he : OfExpr ts e) : OfState ts ([], e) :=
  ⟨[], ts, rfl, .nil, he⟩

theorem OfPending.settle (operator : String) {us ts : List Token} {ps : List Operator.Pending}
    {e : Expr} (hps : OfPending us ps) (he : OfExpr ts e) :
    OfState (us ++ ts) (Operator.settle operator ps e) := by
  induction hps generalizing ts e with
  | nil => exact .start he
  | @cons us ps vs lhs t hps hlhs ht ih =>
    rw [Operator.settle]
    split
    · have h := ih (.binary hlhs ht he)
      simpa [Operator.apply] using h
    · exact ⟨_, ts, rfl, .cons hps hlhs ht, he⟩

theorem OfState.push {ts us : List Token} {state : List Operator.Pending × Expr} {t : Token}
    {e : Expr} (h : OfState ts state) (ht : t.kind = .operator) (he : OfExpr us e) :
    OfState (ts ++ t :: us) (Operator.push state (t.ident, e)) := by
  obtain ⟨vs, ws, rfl, hps, hoperand⟩ := h
  obtain ⟨vs', ws', hsplit, hps', hoperand'⟩ := hps.settle t.ident.text hoperand
  refine ⟨vs' ++ (ws' ++ [t]), us, ?_, .cons hps' hoperand' ht, he⟩
  rw [hsplit]
  simp

theorem OfPending.finish {us ts : List Token} {ps : List Operator.Pending} {e : Expr}
    (hps : OfPending us ps) (he : OfExpr ts e) : OfExpr (us ++ ts) (Operator.finish (ps, e)) := by
  induction hps generalizing ts e with
  | nil => exact he
  | cons hps hlhs ht ih =>
    have h := ih (.binary hlhs ht he)
    simpa [Operator.finish, Operator.apply] using h

/-! ### Definitions -/

inductive OfVariance : Spelling Variance
  | invariant : OfVariance [] .invariant
  | covariant {t} (ht : t.kind = .operator) (hlexeme : t.lexeme = "+") : OfVariance [t] .covariant
  | contravariant {t} (ht : t.kind = .operator) (hlexeme : t.lexeme = "-") :
    OfVariance [t] .contravariant

inductive OfTypeParameter : Spelling TypeParameter
  | intro {us v t vs bound} (hv : OfVariance us v) (ht : t.kind = .identifier)
    (hbound : Behind .subtype OfType vs bound) :
    OfTypeParameter (us ++ t :: vs) ⟨t.ident, v, bound, extent (us ++ t :: vs)⟩

/-- The word for the binding of a class parameter. In a case class it may go without. -/
inductive OfBinding (isCase : Bool) : Spelling (Option Binding)
  | written {t b} (ht : t.kind = .binding b) : OfBinding isCase [t] (some b)
  | absent : OfBinding isCase [] (if isCase then some .val else none)

/-- Method parameters have no binding. -/
inductive Unbound : Spelling (Option Binding)
  | intro : Unbound [] none

inductive OfParameter (rejected : ModifierSet) (B : Spelling (Option Binding)) : Spelling Parameter
  | intro {hs ms bs b t k us type vs default} (hms : OfModifiers hs ms)
    (hadmitted : ms.firstOf? rejected = none) (hb : B bs b) (ht : t.kind = .identifier)
    (hk : k.kind = .colon) (htype : OfType us type) (hdefault : Behind .equals OfExpr vs default) :
    OfParameter rejected B (hs ++ (bs ++ t :: k :: (us ++ vs)))
      ⟨ms, b, t.ident, type, default, extent (hs ++ (bs ++ t :: k :: (us ++ vs)))⟩

abbrev OfClassParameter (isCase : Bool) : Spelling Parameter :=
  OfParameter (ModifierSet.ofList [.«private», .«protected», .override]).complement
    (OfBinding isCase)

abbrev OfMethodParameter : Spelling Parameter :=
  OfParameter (ModifierSet.ofList [.implicit]).complement Unbound

/-- The parameters of a type. Only classes have any. -/
inductive OfClassParameters (isCase : Bool) : TypeKind → Spelling (List Parameter)
  | absent {kind} : OfClassParameters isCase kind [] []
  | present {ts ps} (hps : Enclosed (OfClassParameter isCase) ts ps) :
    OfClassParameters isCase .«class» ts ps

inductive OfParent : Spelling Parent
  | intro {us n vs as} (hn : OfNamed OfType us n) (has : Omissible (Enclosed OfExpr) vs as) :
    OfParent (us ++ vs) ⟨n, as, n.span.through (lastSpan (us ++ vs))⟩

inductive OfParents : Spelling (List Parent)
  | none : OfParents [] []
  | some {ts p us ps} (hp : Headed .kwExtends OfParent ts p)
    (hps : Chained (Headed .kwWith OfParent) us ps) : OfParents (ts ++ us) (p :: ps)

/-- The value a field starts with, behind `last`. -/
inductive OfInitializer (last : Span) : Spelling Initializer
  | given {ts e} (he : Headed .equals OfExpr ts e) : OfInitializer last ts (.given e)
  | omitted : OfInitializer last [] (.omitted last)

def afterLast (ts : List Token) : Span :=
  (ts.getLast?.map fun t => t.span.after t.lexeme).getD default

inductive OfBody : Spelling (Option Expr)
  | absent : OfBody [] none
  | value {ts e} (he : Headed .equals OfExpr ts e) : OfBody ts (some e)
  | block {ts ss} (hss : Braced (OfStmt OfExpr) ts ss) : OfBody ts (some (.block ss (extent ts)))

def memberRejects : ModifierSet := .ofList [.case, .sealed]

inductive OfField : Spelling Field
  | intro {hs ms w b t us type vs init} (hms : OfModifiers hs ms)
    (hadmitted : ms.firstOf? memberRejects = none)
    (hlazy : b = .var → ms.firstOf? (.ofList [.lazy]) = none) (hw : w.kind = .binding b)
    (ht : t.kind = .identifier) (htype : Behind .colon OfType us type)
    (hinit : OfInitializer (afterLast (hs ++ w :: t :: us)) vs init) :
    OfField (hs ++ w :: t :: (us ++ vs))
      ⟨ms, b, t.ident, type, init, extent (hs ++ w :: t :: (us ++ vs))⟩

inductive OfMethod : Spelling Method
  | intro {hs ms w t ts tps us cs vs result bs body} (hms : OfModifiers hs ms)
    (hadmitted : ms.firstOf? memberRejects = none)
    (hlazy : ms.firstOf? (.ofList [.lazy]) = none) (hw : w.kind = .kwDef)
    (ht : t.kind = .operator ∨ t.kind = .identifier) (htps : Bracketed OfTypeParameter ts tps)
    (hcs : Chained (Enclosed OfMethodParameter) us cs) (hresult : Behind .colon OfType vs result)
    (hbody : OfBody bs body) :
    OfMethod (hs ++ w :: t :: (ts ++ (us ++ (vs ++ bs))))
      ⟨ms, t.ident, tps, cs, result, body, extent (hs ++ w :: t :: (ts ++ (us ++ vs)))⟩

inductive OfMember : Spelling Member
  | field {ts f} (hf : OfField ts f) : OfMember ts (.field f)
  | method {ts m} (hm : OfMethod ts m) : OfMember ts (.method m)

theorem OfMember.ne_nil {ts : List Token} {m : Member} (h : OfMember ts m) : ts ≠ [] := by
  cases h with
  | field hf =>
    cases hf
    simp
  | method hm =>
    cases hm
    simp

/-- Whether a type of the given kind admits the modifiers. -/
def Admits (kind : TypeKind) (ms : ModifierList) : Prop :=
  ms.firstOf? (.ofList [.lazy, .override]) = none ∧
    (kind = .trait → ms.firstOf? (.ofList [.case]) = none) ∧
    (kind = .object → ms.firstOf? (.ofList [.abstract, .sealed]) = none)

inductive OfTypeDef : Spelling TypeDef
  | intro {hs ms w kind t ts tps us ps vs parents bs members} (hms : OfModifiers hs ms)
    (hw : w.kind = .typeKind kind) (hadmitted : Admits kind ms) (ht : t.kind = .identifier)
    (htps : Bracketed OfTypeParameter ts tps)
    (hps : OfClassParameters (ms.contains .case) kind us ps) (hparents : OfParents vs parents)
    (hmembers : Omissible (Braced OfMember) bs members) :
    OfTypeDef (hs ++ w :: t :: (ts ++ (us ++ (vs ++ bs))))
      ⟨kind, ms, t.ident, tps, ps, parents, members, (firstSpan (hs ++ [w])).through t.span⟩

theorem OfTypeDef.ne_nil {ts : List Token} {d : TypeDef} (h : OfTypeDef ts d) : ts ≠ [] := by
  cases h
  simp

/-- Definitions with semicolons between them. -/
inductive OfDefinitions : Spelling (List TypeDef)
  | nil {ss} (hss : ∀ s ∈ ss, s.kind = .semicolon) : OfDefinitions ss []
  | cons {ss ts d us ds} (hss : ∀ s ∈ ss, s.kind = .semicolon) (hd : OfTypeDef ts d)
    (hds : OfDefinitions us ds) : OfDefinitions (ss ++ (ts ++ us)) (d :: ds)

/-! ### Items of shapes -/

section Items

variable {R : Spelling α} {ts : List Token} {as : List α} {a : α}

theorem Listed.exists_of_mem (h : Listed R ts as) (ha : a ∈ as) : ∃ us, us.Sublist ts ∧ R us a := by
  induction h with
  | one hb =>
    obtain rfl := List.mem_singleton.mp ha
    exact ⟨_, List.Sublist.refl _, hb⟩
  | more hb _ _ ih =>
    rcases List.mem_cons.mp ha with rfl | ha
    · exact ⟨_, List.sublist_append_left .., hb⟩
    · obtain ⟨us, hsub, hus⟩ := ih ha
      exact ⟨us, (hsub.cons _).trans (List.sublist_append_right ..), hus⟩

theorem Enclosed.exists_of_mem (h : Enclosed R ts as) (ha : a ∈ as) :
    ∃ us, us.Sublist ts ∧ R us a := by
  obtain ⟨-, hitems, -⟩ := h
  cases hitems with
  | absent => simp at ha
  | present hitems =>
    obtain ⟨us, hsub, hus⟩ := hitems.exists_of_mem ha
    exact ⟨us, (hsub.trans (List.sublist_append_left ..)).cons _, hus⟩

theorem Bracketed.exists_of_mem (h : Bracketed R ts as) (ha : a ∈ as) :
    ∃ us, us.Sublist ts ∧ R us a := by
  cases h with
  | absent => simp at ha
  | present h =>
    obtain ⟨-, hitems, -⟩ := h
    obtain ⟨us, hsub, hus⟩ := hitems.exists_of_mem ha
    exact ⟨us, (hsub.trans (List.sublist_append_left ..)).cons _, hus⟩

theorem Chained.exists_of_mem (h : Chained R ts as) (ha : a ∈ as) :
    ∃ us, us.Sublist ts ∧ R us a := by
  induction h with
  | nil => simp at ha
  | cons hb _ ih =>
    rcases List.mem_cons.mp ha with rfl | ha
    · exact ⟨_, List.sublist_append_left .., hb⟩
    · obtain ⟨us, hsub, hus⟩ := ih ha
      exact ⟨us, hsub.trans (List.sublist_append_right ..), hus⟩

theorem Closed.exists_of_mem (h : Closed R ts as) (ha : a ∈ as) : ∃ us, us.Sublist ts ∧ R us a := by
  induction h with
  | nil => simp at ha
  | cons _ hb _ ih =>
    rcases List.mem_cons.mp ha with rfl | ha
    · exact ⟨_, (List.sublist_append_left ..).trans (List.sublist_append_right ..), hb⟩
    · obtain ⟨us, hsub, hus⟩ := ih ha
      exact ⟨us, (hsub.trans (List.sublist_append_right ..)).trans (List.sublist_append_right ..),
        hus⟩

theorem Braced.exists_of_mem (h : Braced R ts as) (ha : a ∈ as) : ∃ us, us.Sublist ts ∧ R us a := by
  obtain ⟨-, hitems⟩ := h
  obtain ⟨us, hsub, hus⟩ := hitems.exists_of_mem ha
  exact ⟨us, hsub.cons _, hus⟩

theorem Behind.exists_of_mem {kind : TokenKind} {a? : Option α} (h : Behind kind R ts a?)
    (ha : a ∈ a?) : ∃ us, us.Sublist ts ∧ R us a := by
  cases h with
  | absent => simp at ha
  | present h =>
    obtain rfl := Option.some.inj ha
    obtain ⟨-, hb⟩ := h
    exact ⟨_, List.sublist_cons_self .., hb⟩

theorem Omissible.exists_of_mem (h : Omissible (Enclosed R) ts as) (ha : a ∈ as) :
    ∃ us, us.Sublist ts ∧ R us a := by
  cases h with
  | absent => simp at ha
  | present h => exact h.exists_of_mem ha

theorem OfBinders.exists_of_mem {bs : List Binder} {b : Binder} (h : OfBinders ts bs)
    (hb : b ∈ bs) : ∃ us, us.Sublist ts ∧ OfBinder us b := by
  cases h with
  | single h =>
    obtain rfl := List.mem_singleton.mp hb
    exact ⟨_, List.Sublist.refl _, h⟩
  | several h => exact h.exists_of_mem hb

theorem OfNamed.exists_of_mem {R : Spelling TypeExpr} {type : NamedType} {a : TypeExpr}
    (h : OfNamed R ts type) (ha : a ∈ type.arguments) : ∃ us, us.Sublist ts ∧ R us a := by
  obtain ⟨-, has⟩ := h
  obtain ⟨us, hsub, hus⟩ := has.exists_of_mem ha
  exact ⟨us, hsub.cons _, hus⟩

end Items

end Spelling

end Mixin
