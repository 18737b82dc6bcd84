import Mixin.Proofs.Grammar.Restoration.Types

/-!
# Expressions are restored

In rendered tokens parentheses are balanced, so that a group is taken for the parameters of a
closure only where an arrow stands behind it. With this, expressions are read back from their
renderings.
-/

namespace Mixin

open Rendering Spelling

/-! ### Balanced parentheses -/

/-- Looking for the end of a group goes past these tokens and is as deep behind them as before. -/
def Balanced (ts : List Token) : Prop :=
  ∀ depth rest, closesBeforeArrow (depth + 1) (ts ++ rest) = closesBeforeArrow (depth + 1) rest

namespace Balanced

variable {ts us : List Token} {t : Token} {tss : List (List Token)}

theorem nil : Balanced [] := fun _ _ => rfl

theorem append (hts : Balanced ts) (hus : Balanced us) : Balanced (ts ++ us) := by
  intro depth rest
  rw [List.append_assoc, hts, hus]

theorem cons (ht : t.kind ∉ [.leftParen, .rightParen, .eof]) (hts : Balanced ts) :
    Balanced (t :: ts) := by
  intro depth rest
  simp only [List.mem_cons, List.not_mem_nil, or_false, not_or] at ht
  rw [List.cons_append, closesBeforeArrow]
  split
  next h => exact absurd h ht.1
  next h => exact absurd h ht.2.1
  next h => exact absurd h ht.2.2
  next => exact hts depth rest

theorem single (ht : t.kind ∉ [.leftParen, .rightParen, .eof]) : Balanced [t] := nil.cons ht

theorem parens (hts : Balanced ts) : Balanced (parens ts) := by
  intro depth rest
  have hinside : closesBeforeArrow (depth + 1) (Rendering.parens ts ++ rest) =
      closesBeforeArrow (depth + 1 + 1) (ts ++ mark .rightParen :: rest) := by
    simp [Rendering.parens, closesBeforeArrow, mark, plain]
  rw [hinside, hts]
  simp [closesBeforeArrow, mark, plain]

theorem separated {kind : TokenKind} (hkind : kind ∉ [.leftParen, .rightParen, .eof])
    (h : ∀ ts ∈ tss, Balanced ts) : Balanced (separated kind tss) := by
  induction tss with
  | nil => exact nil
  | cons ts tss ih =>
    have hts := h ts (List.mem_cons_self ..)
    have hrest := ih fun us hus => h us (List.mem_cons_of_mem _ hus)
    cases tss with
    | nil => exact hts
    | cons us tss => exact hts.append (hrest.cons hkind)

theorem bracketed (h : ∀ ts ∈ tss, Balanced ts) : Balanced (bracketed tss) := by
  cases tss with
  | nil => exact nil
  | cons ts tss => exact ((separated (by decide) h).append (single (by decide))).cons (by decide)

theorem argued (h : ∀ ts ∈ tss, Balanced ts) : Balanced (argued tss) := by
  cases tss with
  | nil => exact nil
  | cons ts tss => exact (separated (by decide) h).parens

theorem braced (h : ∀ ts ∈ tss, Balanced ts) : Balanced (braced tss) :=
  ((separated (by decide) h).append (single (by decide))).cons (by decide)

theorem behind {kind : TokenKind} {ts? : Option (List Token)}
    (hkind : kind ∉ [.leftParen, .rightParen, .eof]) (h : ∀ ts ∈ ts?, Balanced ts) :
    Balanced (behind kind ts?) := by
  cases ts? with
  | none => exact nil
  | some ts => exact (h ts rfl).cons hkind

theorem word (name : Ident) (hts : Balanced ts) : Balanced (word name :: ts) :=
  hts.cons (by simp [Rendering.word, plain])

theorem sign (name : Ident) (hts : Balanced ts) : Balanced (sign name :: ts) :=
  hts.cons (by simp [Rendering.sign, plain])

end Balanced

mutual

theorem balanced_ofType : ∀ a : TypeExpr, Balanced (ofType a)
  | .named name arguments _ => by
    rw [ofType]
    exact (Balanced.bracketed (balanced_ofTypes arguments)).word name
  | .function parameters result _ => by
    rw [ofType]
    have hparameters : Balanced (separated .comma (ofTypes parameters)) :=
      .separated (by decide) (balanced_ofTypes parameters)
    exact hparameters.parens.append ((balanced_ofType result).cons (by decide))
  | .tuple elements _ => by
    rw [ofType]
    exact (Balanced.separated (by decide) (balanced_ofTypes elements)).parens

theorem balanced_ofTypes : ∀ as : List TypeExpr, ∀ ts ∈ ofTypes as, Balanced ts
  | [] => by simp [ofTypes]
  | a :: as => by
    rw [ofTypes]
    exact List.forall_mem_cons.mpr ⟨balanced_ofType a, balanced_ofTypes as⟩

end

theorem balanced_behind_ofType {kind : TokenKind} (hkind : kind ∉ [.leftParen, .rightParen, .eof])
    (a : Option TypeExpr) : Balanced (behind kind (a.map ofType)) := by
  refine .behind hkind fun ts hts => ?_
  obtain ⟨b, -, rfl⟩ := Option.map_eq_some_iff.mp hts
  exact balanced_ofType b

theorem balanced_ofNamed (a : NamedType) : Balanced (ofNamed a) := by
  have htype := balanced_ofType a.toTypeExpr
  rwa [Parser.ofType_toTypeExpr] at htype

theorem balanced_ofBinder (b : Binder) : Balanced (ofBinder b) :=
  (balanced_behind_ofType (by decide) b.type).word b.name

theorem balanced_memberWord (name : Ident) : Balanced [memberWord name] := by
  refine .single ?_
  rw [memberWord]
  split <;> simp [sign, word, plain]

mutual

theorem balanced_ofExpr : ∀ e : Expr, Balanced (ofExpr e)
  | .int .. => .single (by simp [plain])
  | .float .. => .single (by simp [plain])
  | .bool true _ => .single (by decide)
  | .bool false _ => .single (by decide)
  | .char .. => .single (by simp [plain])
  | .string .. => .single (by simp [plain])
  | .null _ => .single (by decide)
  | .unit _ => Balanced.nil.parens
  | .this _ => .single (by decide)
  | .reference name => Balanced.nil.word name
  | .select receiver name _ => by
    rw [ofExpr]
    exact (balanced_ofExpr receiver).parens.append ((balanced_memberWord name).cons (by decide))
  | .call callee arguments _ => by
    rw [ofExpr]
    have harguments : Balanced (separated .comma (ofOperands arguments)) :=
      .separated (by decide) (balanced_ofOperands arguments)
    exact (balanced_ofExpr callee).parens.append harguments.parens
  | .create type arguments _ => by
    rw [ofExpr]
    have harguments := Balanced.argued (balanced_ofOperands arguments)
    exact ((balanced_ofNamed type).append harguments).cons (by decide)
  | .unary operator operand _ => by
    rw [ofExpr]
    exact (balanced_ofExpr operand).parens.sign operator
  | .binary operator lhs rhs _ => by
    rw [ofExpr]
    exact (balanced_ofExpr lhs).parens.append ((balanced_ofExpr rhs).parens.sign operator)
  | .assign target value _ => by
    rw [ofExpr]
    exact (balanced_ofExpr target).parens.append ((balanced_ofExpr value).parens.cons (by decide))
  | .ifThen condition consequent _ => by
    rw [ofExpr]
    have hcondition := (balanced_ofExpr condition).parens.parens
    exact (hcondition.append (balanced_ofExpr consequent).parens).cons (by decide)
  | .ifElse condition consequent alternative _ => by
    rw [ofExpr]
    have hcondition := (balanced_ofExpr condition).parens.parens
    have helse : Balanced (mark .kwElse :: parens (ofExpr alternative)) :=
      (balanced_ofExpr alternative).parens.cons (by decide)
    have hbranches := (balanced_ofExpr consequent).parens.append helse
    exact (hcondition.append hbranches).cons (by decide)
  | .loop condition body _ => by
    rw [ofExpr]
    have hcondition := (balanced_ofExpr condition).parens.parens
    exact (hcondition.append (balanced_ofExpr body).parens).cons (by decide)
  | .closure parameters body _ => by
    rw [ofExpr]
    have hparameters : Balanced (separated .comma (parameters.map ofBinder)) := by
      refine .separated (by decide) fun ts hts => ?_
      obtain ⟨b, -, rfl⟩ := List.mem_map.mp hts
      exact balanced_ofBinder b
    exact hparameters.parens.append ((balanced_ofExpr body).parens.cons (by decide))
  | .block statements _ => by
    rw [ofExpr]
    exact .braced (balanced_ofStmts statements)

theorem balanced_ofOperands : ∀ es : List Expr, ∀ ts ∈ ofOperands es, Balanced ts
  | [] => by simp [ofOperands]
  | e :: es => by
    rw [ofOperands]
    exact List.forall_mem_cons.mpr ⟨(balanced_ofExpr e).parens, balanced_ofOperands es⟩

theorem balanced_ofStmt : ∀ s : Stmt, Balanced (ofStmt s)
  | .define binding name type initializer _ => by
    rw [ofStmt]
    have hvalue : Balanced (mark .equals :: parens (ofExpr initializer)) :=
      (balanced_ofExpr initializer).parens.cons (by decide)
    have htype : Balanced (behind .colon (type.map ofType)) :=
      balanced_behind_ofType (by decide) type
    have htail := htype.append hvalue
    exact (htail.word name).cons (by cases binding <;> decide)
  | .eval e => by
    rw [ofStmt]
    exact (balanced_ofExpr e).parens

theorem balanced_ofStmts : ∀ ss : List Stmt, ∀ ts ∈ ofStmts ss, Balanced ts
  | [] => by simp [ofStmts]
  | s :: ss => by
    rw [ofStmts]
    exact List.forall_mem_cons.mpr ⟨balanced_ofStmt s, balanced_ofStmts ss⟩

end

/-! ### Where closures begin -/

theorem closesBeforeArrow_parens {ts : List Token} (h : Balanced ts) (rest : List Token) :
    closesBeforeArrow 0 (parens ts ++ rest) = rest.head?.any fun t => t.kind == .arrow := by
  have hinside : closesBeforeArrow 0 (parens ts ++ rest) =
      closesBeforeArrow (0 + 1) (ts ++ mark .rightParen :: rest) := by
    simp [parens, closesBeforeArrow, mark, plain]
  rw [hinside, h]
  simp [closesBeforeArrow, mark, plain]

namespace Cursor

variable {c d : Cursor} {ts us : List Token} {t : Token}

theorem Passes.atClosure_parens (h : c.Passes (parens ts) d) (hts : Balanced ts) :
    c.atClosure = d.ahead.head?.any fun t => t.kind == .arrow := by
  have hleft : c.isAt .leftParen = true := by
    rw [h.isAt]
    rfl
  have hname : c.isAt .identifier = false := by
    rw [h.isAt]
    rfl
  rw [atClosure, hleft, hname, h.ahead, closesBeforeArrow_parens hts]
  simp

theorem Passes.atClosure_false (h : c.Passes (parens ts) d) (hts : Balanced ts)
    (hd : d.peek.kind ≠ .arrow) : c.atClosure = false := by
  rw [h.atClosure_parens hts]
  cases hahead : d.ahead with
  | nil => rfl
  | cons t rest =>
    have hpeek : d.peek = t := by simp [peek, hahead]
    rw [hpeek] at hd
    simpa using hd

theorem Passes.atClosure_true (h : c.Passes (parens ts) d) (hts : Balanced ts) {e : Cursor}
    (hd : d.Passes (mark .arrow :: us) e) : c.atClosure = true := by
  rw [h.atClosure_parens hts, hd.ahead]
  rfl

theorem Passes.atClosure_plain (h : c.Passes (t :: ts) d)
    (ht : t.kind ∉ [.leftParen, .identifier]) : c.atClosure = false := by
  simp only [List.mem_cons, List.not_mem_nil, or_false, not_or] at ht
  simp [atClosure, Cursor.isAt, h.head, ht]

end Cursor

/-! ### Literals -/

def Leaf.isFloat : Leaf → Bool
  | float .. => true
  | _ => false

def Floatless (ls : List Leaf) : Prop := ∀ l ∈ ls, l.isFloat = false

theorem Floatless.append {ls ks : List Leaf} (h : Floatless (ls ++ ks)) :
    Floatless ls ∧ Floatless ks :=
  List.forall_mem_append.mp h

theorem Floatless.tail {l : Leaf} {ls : List Leaf} (h : Floatless (l :: ls)) : Floatless ls :=
  (List.forall_mem_cons.mp h).2

theorem Floatless.of_mem {α : Type} {f : α → List Leaf} {as : List α} {a : α}
    (h : Floatless (as.flatMap f)) (ha : a ∈ as) : Floatless (f a) :=
  fun l hl => h l (List.mem_flatMap.mpr ⟨a, ha, hl⟩)

theorem Literal.expr?_rendered {t : Token} {e : Expr} (h : expr? t = some e)
    (hfloat : Floatless e.leaves) :
    ∃ kind lexeme, ofExpr e = [plain kind lexeme] ∧
      (kind = .intLiteral ∨ kind = .stringLiteral ∨ kind = .charLiteral) ∧
      expr? (plain kind lexeme) = some e.unplaced := by
  rw [expr?] at h
  split at h
  next =>
    obtain ⟨value, hvalue, rfl⟩ := Option.map_eq_some_iff.mp h
    refine ⟨_, _, by rw [ofExpr], .inl rfl, ?_⟩
    have hlt : value < powerOfTwo 63 := by
      rw [int?] at hvalue
      split at hvalue
      next hlt =>
        obtain rfl := Option.some.inj hvalue
        exact hlt
      next => simp at hvalue
    simp [expr?, plain, int?_digits hlt, Expr.unplaced]
  next =>
    obtain rfl := Option.some.inj h
    cases hfloat _ (List.mem_singleton_self _)
  next =>
    obtain ⟨value, -, rfl⟩ := Option.map_eq_some_iff.mp h
    exact ⟨_, _, by rw [ofExpr], .inr (.inl rfl),
      by simp [expr?, plain, string?_quoted, Expr.unplaced]⟩
  next =>
    obtain ⟨value, -, rfl⟩ := Option.map_eq_some_iff.mp h
    exact ⟨_, _, by rw [ofExpr], .inr (.inr rfl),
      by simp [expr?, plain, char?_quoted, Expr.unplaced]⟩
  next => simp at h

namespace Parser

theorem ne_of_barred {d : Cursor} {barred : List TokenKind} {kind : TokenKind}
    (hd : d.peek.kind ∉ barred) (hkind : kind ∈ barred) : d.peek.kind ≠ kind := by
  rintro rfl
  exact hd hkind

theorem not_mem_of_barred {d : Cursor} {barred kinds : List TokenKind}
    (hd : d.peek.kind ∉ barred) (hkinds : ∀ kind ∈ kinds, kind ∈ barred) : d.peek.kind ∉ kinds :=
  fun hmem => hd (hkinds _ hmem)

/-! ### Steps through an expression -/

def exprBarred : List TokenKind :=
  [.dot, .leftParen, .leftBracket, .operator, .equals, .arrow, .kwElse]

def groupBarred : List TokenKind := [.dot, .leftParen, .operator, .equals, .arrow]

section Steps

variable {inner : Parser Expr} {c d m : Cursor} {e : Expr} {ts : List Token}

theorem run_suffix?_none (hdot : m.peek.kind ≠ .dot) (hparen : m.peek.kind ≠ .leftParen) :
    (suffix? inner).run m = .done none m :=
  run_bind_of_done (run_eat?_none hdot) (run_if_false (Cursor.isAtOnLine_eq_false hparen))

theorem run_suffixed (h : (simple inner).run c = .done e m) (hdot : m.peek.kind ≠ .dot)
    (hparen : m.peek.kind ≠ .leftParen) : (suffixed inner).run c = .done e m :=
  run_bind_of_done h (run_bind_of_done (run_many_nil (run_suffix?_none hdot hparen)) rfl)

theorem run_suffixed_one {s : Suffix} (h : (simple inner).run c = .done e m) (hts : ts ≠ [])
    (hpass : m.Passes ts d) (hs : (suffix? inner).run m = .done (some s) d)
    (hdot : d.peek.kind ≠ .dot) (hparen : d.peek.kind ≠ .leftParen) :
    (suffixed inner).run c = .done (s.attach e) d := by
  have hnone : (suffix? inner).run d = .done none d := run_suffix?_none hdot hparen
  exact run_bind_of_done h (run_bind_of_done (run_many_cons hts hpass hs (run_many_nil hnone)) rfl)

theorem run_unaryOperator?_none (hc : c.peek.kind ≠ .operator) :
    unaryOperator?.run c = .done none c := by
  refine (run_look _).trans ?_
  rw [if_neg (by simp [hc])]
  rfl

theorem run_operand (hc : c.peek.kind ≠ .operator) (h : (suffixed inner).run c = .done e m) :
    (operand inner).run c = .done e m :=
  run_bind_of_done (run_many_nil (run_unaryOperator?_none hc)) (run_bind_of_done h rfl)

theorem run_operation?_none (hm : m.peek.kind ≠ .operator) :
    (operation? inner).run m = .done none m :=
  run_if_false (Cursor.isAtOnLine_eq_false hm)

theorem run_operations (h : (operand inner).run c = .done e m) (hm : m.peek.kind ≠ .operator) :
    (operations inner).run c = .done e m :=
  run_bind_of_done h (run_bind_of_done (run_many_nil (run_operation?_none hm)) rfl)

theorem run_expressionBody (hif : c.peek.kind ≠ .kwIf) (hwhile : c.peek.kind ≠ .kwWhile)
    (hclosure : c.atClosure = false) (h : (operations inner).run c = .done e m)
    (hm : m.peek.kind ≠ .equals) : (expressionBody inner).run c = .done e m := by
  refine (run_if_false (Cursor.isAt_eq_false hif)).trans ?_
  refine (run_if_false (Cursor.isAt_eq_false hwhile)).trans ?_
  refine (run_if_false hclosure).trans ((run_look _).trans ?_)
  exact run_bind_of_done h (run_if_false (Cursor.isAtOnLine_eq_false hm))

theorem run_expressionBody_simple (hc : c.peek.kind ∉ [.kwIf, .kwWhile, .operator])
    (hclosure : c.atClosure = false) (h : (simple inner).run c = .done e d)
    (hd : d.peek.kind ∉ groupBarred) : (expressionBody inner).run c = .done e d := by
  have hsuffixed := run_suffixed h (ne_of_barred hd (by decide)) (ne_of_barred hd (by decide))
  have hoperand := run_operand (ne_of_barred hc (by decide)) hsuffixed
  have hoperations := run_operations hoperand (ne_of_barred hd (by decide))
  exact run_expressionBody (ne_of_barred hc (by decide)) (ne_of_barred hc (by decide)) hclosure
    hoperations (ne_of_barred hd (by decide))

end Steps

/-- Nested expressions are restored, with and without parentheses. -/
structure Nested (inner : Parser Expr) (n : Nat) (e : Expr) : Prop where
  root : inner.Restores n exprBarred (ofExpr e) e.unplaced
  group : inner.Restores n groupBarred (parens (ofExpr e)) e.unplaced

section Forms

variable {inner : Parser Expr} {n : Nat} {e : Expr} {ts : List Token} {span : Span}

theorem head_ofExpr (e : Expr) :
    ∃ t ts, ofExpr e = t :: ts ∧ t.kind ∉ [.rightParen, .rightBrace, .semicolon] := by
  cases e with
  | bool value => cases value <;> exact ⟨_, _, by rw [ofExpr], by decide⟩
  | int | float | char | string | reference | unary =>
    exact ⟨_, _, by rw [ofExpr], by simp [plain, word, sign]⟩
  | null | this | create | ifThen | ifElse | loop => exact ⟨_, _, by rw [ofExpr], by decide⟩
  | _ => exact ⟨_, _, by rw [ofExpr]; rfl, by decide⟩

theorem restores_simple_group (h : inner.Restores n exprBarred (ofExpr e) e.unplaced) :
    (simple inner).Restores (n + 1) [] (parens (ofExpr e)) e.unplaced := by
  intro c d hc hpass _
  have hinside := hpass.tail
  obtain ⟨m, he, hright⟩ := hinside.split
  obtain ⟨t, ts, hhead, ht⟩ := head_ofExpr e
  have hfirst : c.advance.peek.kind ≠ .rightParen := by
    rw [hhead] at he
    rw [he.head]
    exact fun hkind => ht (by simp [hkind])
  refine (run_look _).trans ?_
  rw [hpass.head]
  refine run_bind_of_done (run_expect hpass rfl _) ?_
  refine run_bind_of_done (run_eat?_none hfirst) ?_
  refine run_bind_of_done (h c.advance m (hc.advance hpass) he (by rw [hright.head]; decide)) ?_
  refine run_bind_of_done (run_expect hright rfl _) ?_
  obtain rfl := hright.tail.eq_of_nil
  rfl

theorem restores_group (h : inner.Restores n exprBarred (ofExpr e) e.unplaced) :
    (expressionBody inner).Restores (n + 1) groupBarred (parens (ofExpr e)) e.unplaced := by
  intro c d hc hpass hd
  have hsimple := restores_simple_group h c d hc hpass (by simp)
  have hclosure := hpass.atClosure_false (balanced_ofExpr e) (ne_of_barred hd (by decide))
  exact run_expressionBody_simple (by rw [hpass.head]; decide) hclosure hsimple hd

theorem not_mem_groupBarred {d : Cursor} (hd : d.peek.kind ∉ exprBarred) :
    d.peek.kind ∉ groupBarred :=
  not_mem_of_barred hd (by decide)

theorem Restores.of_simple {t : Token} (hrendered : ofExpr e = t :: ts)
    (ht : t.kind ∉ [.kwIf, .kwWhile, .operator, .leftParen, .identifier])
    (h : (simple inner).Restores n exprBarred (t :: ts) e.unplaced) :
    (expressionBody inner).Restores n exprBarred (ofExpr e) e.unplaced := by
  intro c d hc hpass hd
  rw [hrendered] at hpass
  simp only [List.mem_cons, List.not_mem_nil, or_false, not_or] at ht
  have hclosure := hpass.atClosure_plain (by simp [ht])
  have hsimple := h c d hc hpass hd
  exact run_expressionBody_simple (by simp [hpass.head, ht]) hclosure hsimple
    (not_mem_groupBarred hd)

theorem restores_literal {t : Token} (h : Literal.expr? t = some e) (hfloat : Floatless e.leaves) :
    (expressionBody inner).Restores n exprBarred (ofExpr e) e.unplaced := by
  obtain ⟨kind, lexeme, hrendered, hkind, hvalue⟩ := Literal.expr?_rendered h hfloat
  refine .of_simple hrendered (by rcases hkind with rfl | rfl | rfl <;> simp [plain]) ?_
  intro c d hc hpass hd
  have hliteral : literal.run c = .done e.unplaced d := by
    refine (run_look _).trans ?_
    rw [hpass.head, hvalue]
    obtain rfl := hpass.tail.eq_of_nil
    exact run_bind_of_done (run_next hpass) rfl
  refine (run_look _).trans ?_
  rw [hpass.head]
  rcases hkind with rfl | rfl | rfl <;> exact hliteral

theorem restores_word (kind : TokenKind) (f : Span → Expr) (hrendered : ofExpr e = [mark kind])
    (hvalue : e.unplaced = f .topOfFile)
    (hkind : kind ∉ [.kwIf, .kwWhile, .operator, .leftParen, .identifier])
    (hsimple : ∀ c : Cursor, c.peek = mark kind →
      (simple inner).run c = (next >>= fun t => pure (f t.span)).run c) :
    (expressionBody inner).Restores n exprBarred (ofExpr e) e.unplaced := by
  refine .of_simple hrendered hkind ?_
  intro c d hc hpass hd
  rw [hsimple c hpass.head, hvalue]
  obtain rfl := hpass.tail.eq_of_nil
  exact run_bind_of_done (run_next hpass) rfl

theorem restores_constant {t : Token} (h : t.constant? = some e) :
    (expressionBody inner).Restores n exprBarred (ofExpr e) e.unplaced := by
  rw [Token.constant?] at h
  split at h
  next =>
    obtain rfl := Option.some.inj h
    refine restores_word .kwTrue (.bool true) (by rw [ofExpr]; rfl) rfl (by decide) ?_
    exact fun c hc => (run_look _).trans (by rw [hc]; rfl)
  next =>
    obtain rfl := Option.some.inj h
    refine restores_word .kwFalse (.bool false) (by rw [ofExpr]; rfl) rfl (by decide) ?_
    exact fun c hc => (run_look _).trans (by rw [hc]; rfl)
  next =>
    obtain rfl := Option.some.inj h
    refine restores_word .kwNull .null (by rw [ofExpr]) rfl (by decide) ?_
    exact fun c hc => (run_look _).trans (by rw [hc]; rfl)
  next =>
    obtain rfl := Option.some.inj h
    refine restores_word .kwThis .this (by rw [ofExpr]) rfl (by decide) ?_
    exact fun c hc => (run_look _).trans (by rw [hc]; rfl)
  next => simp at h

theorem restores_reference (name : Ident) :
    (expressionBody inner).Restores n exprBarred (ofExpr (.reference name))
      (Expr.reference name).unplaced := by
  intro c d hc hpass hd
  rw [ofExpr] at hpass
  have hsimple : (simple inner).run c = .done (.reference name.unplaced) d := by
    refine (run_look _).trans ?_
    rw [hpass.head]
    refine run_bind_of_done (run_identifier hpass) ?_
    obtain rfl := hpass.tail.eq_of_nil
    rfl
  have hclosure : c.atClosure = false := by
    have hsecond : c.peekNth 1 = d.peek := by
      simp [Cursor.peekNth, Cursor.peek, hpass.ahead, hpass.final, List.head?_eq_getElem?]
    have harrow := ne_of_barred hd (show .arrow ∈ exprBarred by decide)
    simp [Cursor.atClosure, hpass.isAt, hsecond, harrow, word, plain]
  exact run_expressionBody_simple (by simp [hpass.head, word, plain]) hclosure hsimple
    (not_mem_groupBarred hd)

theorem restores_unit (span : Span) :
    (expressionBody inner).Restores n exprBarred (ofExpr (.unit span))
      (Expr.unit span).unplaced := by
  intro c d hc hpass hd
  rw [ofExpr] at hpass
  have hsimple : (simple inner).run c = .done (.unit .topOfFile) d := by
    refine (run_look _).trans ?_
    rw [hpass.head]
    refine run_bind_of_done (run_expect hpass rfl _) ?_
    refine run_bind_of_done (run_eat? hpass.tail rfl) ?_
    obtain rfl := hpass.tail.tail.eq_of_nil
    rfl
  have hclosure := hpass.atClosure_false .nil (ne_of_barred hd (by decide))
  exact run_expressionBody_simple (by rw [hpass.head]; decide) hclosure hsimple
    (not_mem_groupBarred hd)

theorem restores_arguments {es : List Expr} (hes : ∀ e ∈ es, Nested inner n e) :
    (arguments inner).Restores (n + 1) [] (parens (separated .comma (ofOperands es)))
      (es.map Expr.unplaced) := by
  rw [ofOperands_eq]
  refine Restores.enclosed (fun e he => (hes e he).group) (by decide) (by decide) fun e _ => ?_
  exact ⟨_, _, rfl, by decide⟩

theorem Restores.argumentsOnLine {barred : List TokenKind} {tok : Expr → List Token}
    {es : List Expr} (hes : ∀ e ∈ es, inner.Restores n barred (tok e) e.unplaced)
    (hcomma : .comma ∉ barred) (hparen : .rightParen ∉ barred)
    (hhead : ∀ e ∈ es, ∃ t ts, tok e = t :: ts ∧ t.kind ≠ .rightParen) :
    (Parser.argumentsOnLine inner).Restores (n + 1) [.leftParen] (argued (es.map tok))
      (es.map Expr.unplaced) := by
  intro c d hc hpass hd
  cases es with
  | nil =>
    obtain rfl := hpass.eq_of_nil
    exact run_if_false (Cursor.isAtOnLine_eq_false (by simpa using hd))
  | cons e es =>
    refine (run_if_true (by rw [hpass.isAtOnLine rfl]; rfl)).trans ?_
    exact Restores.enclosed hes hcomma hparen hhead c d hc hpass (by simp)

theorem restores_create {type : NamedType} {es : List Expr} (htype : OfNamed OfType ts type)
    (hes : ∀ e ∈ es, Nested inner n e) :
    (expressionBody inner).Restores (n + 1) exprBarred (ofExpr (.create type es span))
      (Expr.create type es span).unplaced := by
  refine .of_simple (by rw [ofExpr]) (by decide) ?_
  intro c d hc hpass hd
  have harguments := Restores.argumentsOnLine (fun e he => (hes e he).group) (by decide) (by decide)
    fun e _ => ⟨_, _, rfl, by decide⟩
  rw [← ofOperands_eq] at harguments
  refine (run_look _).trans ?_
  rw [hpass.head]
  refine run_bind_of_done (run_expect hpass rfl _) ?_
  obtain ⟨m, hnamed, hargued⟩ := hpass.tail.split
  have hblank := hpass.first.blank hc
  have hm : m.peek.kind ∉ [.leftBracket] := by
    cases es with
    | nil =>
      obtain rfl := hargued.eq_of_nil
      simpa using ne_of_barred hd (show .leftBracket ∈ exprBarred by decide)
    | cons e es =>
      rw [hargued.head]
      decide
  refine run_bind_of_done (restores_namedType htype _ c.advance m hblank hnamed hm) ?_
  refine run_bind_of_done (harguments m d (hnamed.blank hblank) hargued ?_) ?_
  · simpa using ne_of_barred hd (show .leftParen ∈ exprBarred by decide)
  · rw [run_look, (hpass.blank hc).previousSpan]
    simp only [Expr.unplaced, Expr.unplacedAll_eq]
    rfl

theorem head_ofStmt (s : Stmt) :
    ∃ t ts, ofStmt s = t :: ts ∧ t.kind ∉ [.semicolon, .rightBrace] := by
  cases s with
  | define binding => exact ⟨_, _, by rw [ofStmt], by cases binding <;> decide⟩
  | eval => exact ⟨_, _, by rw [ofStmt]; rfl, by decide⟩

theorem restores_define {binding : Binding} {name : Ident} {type : Option TypeExpr}
    (htype : Behind .colon OfType ts type) (he : Nested inner n e) :
    (statement inner).Restores n groupBarred (ofStmt (.define binding name type e span))
      (Stmt.define binding name type e span).unplaced := by
  intro c d hc hpass hd
  rw [ofStmt] at hpass
  have hname := hpass.tail
  obtain ⟨m, htyped, hequals⟩ := hname.tail.split
  have hblank := hname.first.blank (hpass.first.blank hc)
  have hm : m.peek.kind ∉ .colon :: typeBarred := by
    rw [hequals.head]
    decide
  refine (run_look _).trans ?_
  rw [hpass.head]
  refine run_bind_of_done (run_next hpass) ?_
  refine run_bind_of_done (run_identifier hname) ?_
  refine run_bind_of_done (restores_typeAnnotation? htype n _ m hblank htyped hm) ?_
  refine run_bind_of_done (run_expect hequals rfl _) ?_
  have hvalue := hequals.first.blank (htyped.blank hblank)
  refine run_bind_of_done (he.group m.advance d hvalue hequals.tail hd) ?_
  rw [Stmt.unplaced, Expr.span_unplaced]
  rfl

theorem restores_statement {R : Spelling Expr} {s : Stmt} (h : OfStmt R ts s)
    (hnested : ∀ us e, R us e → Floatless e.leaves → Nested inner n e) (hfloat : Floatless s.leaves)
    :
    (statement inner).Restores n groupBarred (ofStmt s) s.unplaced := by
  cases h with
  | define _ _ htype _ he =>
    rw [Stmt.leaves] at hfloat
    exact restores_define htype (hnested _ _ he hfloat.tail.append.2)
  | eval he =>
    rw [Stmt.leaves] at hfloat
    intro c d hc hpass hd
    rw [ofStmt] at hpass
    refine (run_look _).trans ?_
    rw [hpass.head]
    exact run_bind_of_done ((hnested _ _ he hfloat).group c d hc hpass hd) rfl

theorem restores_block {R : Spelling Expr} {ss : List Stmt} (h : Braced (OfStmt R) ts ss)
    (hnested : ∀ us e, R us e → Floatless e.leaves → Nested inner n e)
    (hfloat : Floatless (ss.flatMap Stmt.leaves)) :
    (block inner).Restores (n + 1) [] (braced (ofStmts ss))
      (.block (ss.map Stmt.unplaced) .topOfFile) := by
  have hstatements : (statements (statement inner)).Restores (n + 1) [] (braced (ofStmts ss))
      (ss.map Stmt.unplaced) := by
    have hitem : ∀ s ∈ ss, (statement inner).Restores n groupBarred (ofStmt s) s.unplaced := by
      intro s hs
      obtain ⟨us, -, hus⟩ := h.exists_of_mem hs
      exact restores_statement hus hnested (hfloat.of_mem hs)
    rw [ofStmts_eq]
    exact Restores.statements hitem (by decide) (by decide) fun s _ => head_ofStmt s
  intro c d hc hpass hd
  refine (run_look _).trans (run_bind_of_done (hstatements c d hc hpass hd) ?_)
  rw [run_look, hc.peek, (hpass.blank hc).previousSpan]
  rfl

theorem restores_braces {R : Spelling Expr} {ss : List Stmt} (h : Braced (OfStmt R) ts ss)
    (hnested : ∀ us e, R us e → Floatless e.leaves → Nested inner n e)
    (hfloat : Floatless (ss.flatMap Stmt.leaves)) :
    (expressionBody inner).Restores (n + 1) exprBarred (ofExpr (.block ss span))
      (Expr.block ss span).unplaced := by
  refine .of_simple (by rw [ofExpr]; rfl) (by decide) ?_
  intro c d hc hpass hd
  refine (run_look _).trans ?_
  rw [hpass.head, Expr.unplaced, Stmt.unplacedAll_eq]
  exact restores_block h hnested hfloat c d hc hpass (by simp)

theorem run_expressionBody_suffixed {c d : Cursor} {ts us : List Token}
    (hpass : c.Passes (parens ts ++ us) d) (hts : Balanced ts)
    (hus : ∀ t ∈ us.head?, t.kind ≠ .arrow) (hne : us ≠ [])
    (h : (operations inner).run c = .done e d) (hd : d.peek.kind ≠ .equals) :
    (expressionBody inner).run c = .done e d := by
  obtain ⟨m, hgroup, hrest⟩ := hpass.split
  obtain ⟨t, us, rfl⟩ := List.exists_cons_of_ne_nil hne
  have hclosure := hgroup.atClosure_false hts (by rw [hrest.head]; exact hus t rfl)
  have hhead : c.peek = mark .leftParen := hpass.head
  exact run_expressionBody (by rw [hhead]; decide) (by rw [hhead]; decide) hclosure h hd

theorem restores_select {name : Ident} (he : Nested inner n e) :
    (expressionBody inner).Restores (n + 1) exprBarred (ofExpr (.select e name span))
      (Expr.select e name span).unplaced := by
  intro c d hc hpass hd
  rw [ofExpr] at hpass
  have hhead : c.peek = mark .leftParen := hpass.head
  obtain ⟨m, hgroup, hrest⟩ := hpass.split
  have hsuffix : (suffix? inner).run m = .done (some (.select name.unplaced)) d := by
    refine run_bind_of_done (run_eat? hrest rfl) ?_
    refine run_bind_of_done (run_memberName hrest.tail) ?_
    obtain rfl := hrest.tail.tail.eq_of_nil
    rfl
  have hsimple := restores_simple_group he.root c m hc hgroup (by simp)
  have hsuffixed := run_suffixed_one hsimple (by simp) hrest hsuffix (ne_of_barred hd (by decide))
    (ne_of_barred hd (by decide))
  have hoperand := run_operand (by rw [hhead]; decide) hsuffixed
  have hoperations := run_operations hoperand (ne_of_barred hd (by decide))
  rw [Suffix.attach, Expr.span_unplaced] at hoperations
  exact run_expressionBody_suffixed hpass (balanced_ofExpr e) (by simp [mark, plain]) (by simp)
    hoperations (ne_of_barred hd (by decide))

theorem restores_call {es : List Expr} (he : Nested inner n e) (hes : ∀ a ∈ es, Nested inner n a) :
    (expressionBody inner).Restores (n + 1) exprBarred (ofExpr (.call e es span))
      (Expr.call e es span).unplaced := by
  intro c d hc hpass hd
  rw [ofExpr] at hpass
  have hhead : c.peek = mark .leftParen := hpass.head
  obtain ⟨m, hgroup, hrest⟩ := hpass.split
  have hsuffix : (suffix? inner).run m =
      .done (some (.call (es.map Expr.unplaced) .topOfFile)) d := by
    have hdot : m.peek.kind ≠ .dot := by
      rw [hrest.head]
      decide
    refine run_bind_of_done (run_eat?_none hdot) ?_
    refine (run_if_true (by rw [hrest.isAtOnLine rfl]; rfl)).trans ?_
    refine run_bind_of_done (restores_arguments hes m d (hgroup.blank hc) hrest (by simp)) ?_
    rw [run_look, (hpass.blank hc).previousSpan]
    rfl
  have hsimple := restores_simple_group he.root c m hc hgroup (by simp)
  have hsuffixed := run_suffixed_one hsimple (by simp [parens]) hrest hsuffix
    (ne_of_barred hd (by decide)) (ne_of_barred hd (by decide))
  have hoperand := run_operand (by rw [hhead]; decide) hsuffixed
  have hoperations := run_operations hoperand (ne_of_barred hd (by decide))
  rw [Suffix.attach, Expr.span_unplaced] at hoperations
  rw [Expr.unplaced, Expr.unplacedAll_eq]
  exact run_expressionBody_suffixed hpass (balanced_ofExpr e) (by simp [parens, mark, plain])
    (by simp [parens]) hoperations (ne_of_barred hd (by decide))

theorem restores_unary {operator : Ident} (hoperator : operator.text ∈ Operator.unaryOperators)
    (he : Nested inner n e) :
    (expressionBody inner).Restores (n + 1) exprBarred (ofExpr (.unary operator e span))
      (Expr.unary operator e span).unplaced := by
  intro c d hc hpass hd
  rw [ofExpr] at hpass
  have hsign : unaryOperator?.run c = .done (some operator.unplaced) c.advance := by
    refine (run_look _).trans ?_
    rw [hpass.head, if_pos (by simp [sign, plain, hoperator])]
    exact run_bind_of_done (run_next hpass) rfl
  have hgroup := hpass.tail
  have hsimple := restores_simple_group he.root c.advance d (hpass.first.blank hc) hgroup (by simp)
  have hsuffixed := run_suffixed hsimple (ne_of_barred hd (by decide)) (ne_of_barred hd (by decide))
  have hoperators : (many unaryOperator?).run c = .done [operator.unplaced] c.advance := by
    refine run_many_cons (by simp) hpass.first hsign (run_many_nil (run_unaryOperator?_none ?_))
    rw [hgroup.head]
    decide
  have hoperand : (operand inner).run c = .done (Expr.unary operator e span).unplaced d := by
    refine run_bind_of_done hoperators (run_bind_of_done hsuffixed ?_)
    rw [List.foldr_cons, List.foldr_nil, Expr.span_unplaced]
    rfl
  have hoperations := run_operations hoperand (ne_of_barred hd (by decide))
  have hclosure := hpass.atClosure_plain (by simp [sign, plain])
  exact run_expressionBody (by simp [hpass.head, sign, plain]) (by simp [hpass.head, sign, plain])
    hclosure hoperations (ne_of_barred hd (by decide))

theorem run_operand_group {c m : Cursor} (he : Nested inner n e) (hc : c.Blank (n + 1))
    (hpass : c.Passes (parens (ofExpr e)) m) (hdot : m.peek.kind ≠ .dot)
    (hparen : m.peek.kind ≠ .leftParen) : (operand inner).run c = .done e.unplaced m := by
  have hsimple := restores_simple_group he.root c m hc hpass (by simp)
  have hsuffixed := run_suffixed hsimple hdot hparen
  refine run_operand ?_ hsuffixed
  rw [hpass.head]
  decide

theorem restores_binary {operator : Ident} {a b : Expr} (ha : Nested inner n a)
    (hb : Nested inner n b) :
    (expressionBody inner).Restores (n + 1) exprBarred (ofExpr (.binary operator a b span))
      (Expr.binary operator a b span).unplaced := by
  intro c d hc hpass hd
  rw [ofExpr] at hpass
  obtain ⟨m, hlhs, hrest⟩ := hpass.split
  have hm : m.peek.kind = .operator := by
    rw [hrest.head]
    rfl
  have hfirst := run_operand_group ha hc hlhs (by rw [hm]; decide) (by rw [hm]; decide)
  have hsecond := run_operand_group hb (hrest.first.blank (hlhs.blank hc)) hrest.tail
    (ne_of_barred hd (by decide)) (ne_of_barred hd (by decide))
  have hoperation : (operation? inner).run m = .done (some (operator.unplaced, b.unplaced)) d := by
    refine (run_if_true (by rw [hrest.isAtOnLine rfl]; rfl)).trans ?_
    exact run_bind_of_done (run_next hrest) (run_bind_of_done hsecond rfl)
  have hnone : (operation? inner).run d = .done none d :=
    run_operation?_none (ne_of_barred hd (by decide))
  have hoperations :
      (operations inner).run c = .done (Expr.binary operator a b span).unplaced d := by
    have hmany := run_many_cons (by simp) hrest hoperation (run_many_nil hnone)
    refine run_bind_of_done hfirst (run_bind_of_done hmany ?_)
    have htree : Operator.tree a.unplaced [(operator.unplaced, b.unplaced)] =
        (Expr.binary operator a b span).unplaced := by
      simp [Operator.tree, Operator.push, Operator.settle, Operator.finish, Operator.apply,
        Expr.unplaced]
    rw [htree]
    rfl
  exact run_expressionBody_suffixed hpass (balanced_ofExpr a) (by simp [sign, plain]) (by simp)
    hoperations (ne_of_barred hd (by decide))

theorem restores_assign {a b : Expr} (ha : Nested inner n a) (hb : Nested inner n b) :
    (expressionBody inner).Restores (n + 1) exprBarred (ofExpr (.assign a b span))
      (Expr.assign a b span).unplaced := by
  intro c d hc hpass hd
  rw [ofExpr] at hpass
  obtain ⟨m, htarget, hrest⟩ := hpass.split
  have hm : m.peek.kind = .equals := by
    rw [hrest.head]
    rfl
  have hoperand := run_operand_group ha hc htarget (by rw [hm]; decide) (by rw [hm]; decide)
  have hoperations := run_operations hoperand (by rw [hm]; decide)
  have hclosure := htarget.atClosure_false (balanced_ofExpr a) (by rw [hm]; decide)
  have hvalue := hb.group m.advance d ((htarget.blank hc).advance hrest) hrest.tail
    (not_mem_groupBarred hd)
  refine (run_if_false (by rw [hpass.isAt]; rfl)).trans ?_
  refine (run_if_false (by rw [hpass.isAt]; rfl)).trans ?_
  refine (run_if_false hclosure).trans ((run_look _).trans ?_)
  refine run_bind_of_done hoperations ((run_if_true (by rw [hrest.isAtOnLine rfl]; rfl)).trans ?_)
  refine run_bind_of_done (run_next hrest) (run_bind_of_done hvalue ?_)
  rw [hc.peek, Expr.span_unplaced]
  rfl

theorem run_guarded {keyword : TokenKind} {c d : Cursor} {us : List Token} (he : Nested inner n e)
    (hc : c.Blank (n + 1)) (hpass : c.Passes (mark keyword :: (parens (parens (ofExpr e)) ++ us)) d)
    :
    ∃ m, (guarded inner keyword).run c = .done (.topOfFile, e.unplaced) m ∧ m.Blank n ∧
      m.Passes us d := by
  obtain ⟨m, hgroup, hrest⟩ := hpass.tail.split
  obtain ⟨k, hcondition, hright⟩ := hgroup.tail.split
  have hblank := hc.advance hpass
  refine ⟨m, ?_, hgroup.blank hblank, hrest⟩
  refine run_bind_of_done (run_expect hpass rfl _) ?_
  refine run_bind_of_done (run_expect hgroup rfl _) ?_
  have hk : k.peek.kind ∉ groupBarred := by
    rw [hright.head]
    decide
  refine run_bind_of_done (he.group _ k (hgroup.first.blank hblank) hcondition hk) ?_
  refine run_bind_of_done (run_expect hright rfl _) ?_
  obtain rfl := hright.tail.eq_of_nil
  rfl

theorem restores_ifThen {a b : Expr} (ha : Nested inner n a) (hb : Nested inner n b) :
    (expressionBody inner).Restores (n + 1) exprBarred (ofExpr (.ifThen a b span))
      (Expr.ifThen a b span).unplaced := by
  intro c d hc hpass hd
  rw [ofExpr] at hpass
  obtain ⟨m, hguard, hblank, hconsequent⟩ := run_guarded ha hc hpass
  refine (run_if_true (by rw [hpass.isAt]; rfl)).trans (run_bind_of_done hguard ?_)
  refine run_bind_of_done (hb.group m d hblank hconsequent (not_mem_groupBarred hd)) ?_
  have hnone : (behind? .kwElse inner).run d = .done none d :=
    restores_absent .kwElse inner n d d (hconsequent.blank hblank) (.refl d)
      (by simpa using ne_of_barred hd (show .kwElse ∈ exprBarred by decide))
  refine run_bind_of_done hnone ?_
  rw [run_look, (hpass.blank hc).previousSpan]
  rfl

theorem restores_ifElse {a b e : Expr} (ha : Nested inner n a) (hb : Nested inner n b)
    (he : Nested inner n e) :
    (expressionBody inner).Restores (n + 1) exprBarred (ofExpr (.ifElse a b e span))
      (Expr.ifElse a b e span).unplaced := by
  intro c d hc hpass hd
  rw [ofExpr] at hpass
  obtain ⟨m, hguard, hblank, hbranches⟩ := run_guarded ha hc hpass
  obtain ⟨k, hconsequent, halternative⟩ := hbranches.split
  have hk : k.peek.kind ∉ groupBarred := by
    rw [halternative.head]
    decide
  have hsome := he.group.behind k d ((hconsequent.blank hblank).mono (Nat.le_succ n)) halternative
    (not_mem_groupBarred hd)
  refine (run_if_true (by rw [hpass.isAt]; rfl)).trans (run_bind_of_done hguard ?_)
  refine run_bind_of_done (hb.group m k hblank hconsequent hk) (run_bind_of_done hsome ?_)
  rw [run_look, (hpass.blank hc).previousSpan]
  rfl

theorem restores_loop {a b : Expr} (ha : Nested inner n a) (hb : Nested inner n b) :
    (expressionBody inner).Restores (n + 1) exprBarred (ofExpr (.loop a b span))
      (Expr.loop a b span).unplaced := by
  intro c d hc hpass hd
  rw [ofExpr] at hpass
  obtain ⟨m, hguard, hblank, hbody⟩ := run_guarded ha hc hpass
  refine (run_if_false (by rw [hpass.isAt]; rfl)).trans ?_
  refine (run_if_true (by rw [hpass.isAt]; rfl)).trans (run_bind_of_done hguard ?_)
  refine run_bind_of_done (hb.group m d hblank hbody (not_mem_groupBarred hd)) ?_
  rw [Expr.span_unplaced]
  rfl

theorem run_modifiers {ms : ModifierList} {c m : Cursor}
    (hkinds : ts.map Token.kind = ms.written.map fun w => .modifier w.1) (hc : c.Blank n)
    (hpass : c.Passes ts m) (hm : m.peek.kind.modifier? = none) :
    modifiers.run c = .done ms.unplaced m := by
  obtain ⟨ws⟩ := ms
  refine run_bind_of_done (a := ws.map fun w => (w.1, .topOfFile)) ?_ rfl
  induction ws generalizing ts c with
  | nil =>
    obtain rfl := List.map_eq_nil_iff.mp hkinds
    obtain rfl := hpass.eq_of_nil
    exact run_many_nil ((run_look _).trans (by rw [hm]; rfl))
  | cons w ws ih =>
    obtain ⟨t, ts, rfl, ht, hts⟩ := List.map_eq_cons_iff.mp hkinds
    have hspan := hc.peek
    rw [hpass.head] at hspan
    refine run_many_cons (by simp) hpass.first ((run_look _).trans ?_)
      (ih (hpass.first.blank hc) hpass.tail hts)
    rw [hpass.head, ht]
    refine run_bind_of_done (run_next hpass) ?_
    rw [hspan]
    rfl

theorem run_rejectModifiers {ms : ModifierList} {rejected : ModifierSet} (target : ModifierTarget)
    (h : ms.firstOf? rejected = none) (c : Cursor) :
    (rejectModifiers ms.unplaced rejected target).run c = .done () c := by
  rw [rejectModifiers, ModifierList.firstOf?_unplaced, h]
  rfl

theorem restores_binder {b : Binder} (h : OfBinder ts b) (n : Nat) :
    binder.Restores n (.colon :: typeBarred) (ofBinder b) b.unplaced := by
  obtain ⟨-, htype⟩ := h
  intro c d hc hpass hd
  have hmodifiers : modifiers.run c = .done (ModifierList.unplaced ⟨[]⟩) c := by
    refine run_modifiers rfl hc (.refl c) ?_
    rw [hpass.head]
    rfl
  have hblank := hpass.first.blank hc
  refine (run_look _).trans (run_bind_of_done hmodifiers ?_)
  refine run_bind_of_done (run_rejectModifiers _ rfl c) (run_bind_of_done (run_identifier hpass) ?_)
  refine run_bind_of_done (restores_typeAnnotation? htype n _ d hblank hpass.tail hd) ?_
  rw [run_look, hc.peek, (hpass.blank hc).previousSpan]
  rfl

theorem restores_closure {bs : List Binder} (hbs : OfBinders ts bs) (he : Nested inner n e) :
    (expressionBody inner).Restores (n + 1) exprBarred (ofExpr (.closure bs e span))
      (Expr.closure bs e span).unplaced := by
  have hbinders : (enclosed .leftParen .rightParen binder).Restores (n + 1) []
      (parens (separated .comma (bs.map ofBinder))) (bs.map Binder.unplaced) := by
    have hitem : ∀ b ∈ bs, binder.Restores n (.colon :: typeBarred) (ofBinder b) b.unplaced := by
      intro b hb
      obtain ⟨us, -, hus⟩ := hbs.exists_of_mem hb
      exact restores_binder hus n
    exact Restores.enclosed hitem (by decide) (by decide)
      fun b _ => ⟨_, _, rfl, by simp [word, plain]⟩
  have hbalanced : Balanced (separated .comma (bs.map ofBinder)) := by
    refine .separated (by decide) fun us hus => ?_
    obtain ⟨b, -, rfl⟩ := List.mem_map.mp hus
    exact balanced_ofBinder b
  intro c d hc hpass hd
  rw [ofExpr] at hpass
  obtain ⟨m, hparameters, harrow⟩ := hpass.split
  have hbody := (hparameters.blank hc).advance harrow
  refine (run_if_false (by rw [hpass.isAt]; rfl)).trans ?_
  refine (run_if_false (by rw [hpass.isAt]; rfl)).trans ?_
  refine (run_if_true (hparameters.atClosure_true hbalanced harrow)).trans ?_
  have hlist : binders.run c = .done (bs.map Binder.unplaced) m := by
    refine (run_if_true (by rw [hpass.isAt]; rfl)).trans ?_
    exact hbinders c m hc hparameters (by simp)
  refine (run_look _).trans (run_bind_of_done hlist ?_)
  refine run_bind_of_done (run_expect harrow rfl _) ?_
  refine run_bind_of_done (he.group m.advance d hbody harrow.tail (not_mem_groupBarred hd)) ?_
  rw [hc.peek, Expr.span_unplaced]
  rfl

end Forms

theorem restores_parens {e : Expr}
    (h : ∀ n, expression.Restores n exprBarred (ofExpr e) e.unplaced) (n : Nat) :
    expression.Restores n groupBarred (parens (ofExpr e)) e.unplaced :=
  restores_fix (fun _ _ hinner => restores_group (hinner _ _ _ h)) n

theorem restores_expression {ts : List Token} {e : Expr} (h : OfExpr ts e)
    (hfloat : Floatless e.leaves) (n : Nat) :
    expression.Restores n exprBarred (ofExpr e) e.unplaced := by
  have hnested : ∀ {inner : Parser Expr} {n : Nat} {e : Expr},
      (∀ barred ts a, (∀ m, expression.Restores m barred ts a) → inner.Restores n barred ts a) →
      (∀ m, expression.Restores m exprBarred (ofExpr e) e.unplaced) → Nested inner n e :=
    fun hinner he => ⟨hinner _ _ _ he, hinner _ _ _ (restores_parens he)⟩
  induction h generalizing n with
  | literal h => exact restores_fix (fun _ _ _ => restores_literal h hfloat) n
  | constant h => exact restores_fix (fun _ _ _ => restores_constant h) n
  | reference => exact restores_fix (fun _ _ _ => restores_reference _) n
  | unit => exact restores_fix (fun _ _ _ => restores_unit _) n
  | group _ _ _ ih => exact ih hfloat n
  | block _ hss ih =>
    rw [Expr.leaves, Expr.leavesOfStatements_eq] at hfloat
    refine restores_fix (fun inner n hinner => ?_) n
    exact restores_braces hss (fun us e he hf => hnested hinner (ih us e he hf)) hfloat
  | create _ _ hn has ih =>
    rw [Expr.leaves, Expr.leavesOfAll_eq] at hfloat
    refine restores_fix (fun inner n hinner => restores_create hn fun e he => ?_) n
    obtain ⟨us, -, hus⟩ := has.exists_of_mem he
    exact hnested hinner (ih us e hus (hfloat.append.2.of_mem he))
  | select _ _ _ ih =>
    rw [Expr.leaves] at hfloat
    exact restores_fix (fun _ _ hinner => restores_select (hnested hinner (ih hfloat.append.1))) n
  | call _ _ has ih iha =>
    rw [Expr.leaves, Expr.leavesOfAll_eq] at hfloat
    refine restores_fix (fun inner n hinner => ?_) n
    refine restores_call (hnested hinner (ih hfloat.append.1)) fun e he => ?_
    obtain ⟨us, -, hus⟩ := has.exists_of_mem he
    exact hnested hinner (iha us e hus (hfloat.append.2.of_mem he))
  | unary _ hlexeme _ ih =>
    rw [Expr.leaves] at hfloat
    refine restores_fix (fun _ _ hinner => ?_) n
    exact restores_unary hlexeme (hnested hinner (ih hfloat.tail))
  | binary _ _ _ iha ihb =>
    rw [Expr.leaves] at hfloat
    refine restores_fix (fun _ _ hinner => ?_) n
    have ha := hnested hinner (iha hfloat.append.1)
    exact restores_binary ha (hnested hinner (ihb hfloat.append.2.tail))
  | assign _ _ _ iha ihb =>
    rw [Expr.leaves] at hfloat
    refine restores_fix (fun _ _ hinner => ?_) n
    have ha := hnested hinner (iha hfloat.append.1)
    exact restores_assign ha (hnested hinner (ihb hfloat.append.2))
  | ifThen _ _ _ _ _ iha ihb =>
    rw [Expr.leaves] at hfloat
    refine restores_fix (fun _ _ hinner => ?_) n
    have ha := hnested hinner (iha hfloat.append.1)
    exact restores_ifThen ha (hnested hinner (ihb hfloat.append.2))
  | ifElse _ _ _ _ _ _ _ iha ihb ihd =>
    rw [Expr.leaves] at hfloat
    refine restores_fix (fun _ _ hinner => ?_) n
    have ha := hnested hinner (iha hfloat.append.1)
    have hb := hnested hinner (ihb hfloat.append.2.append.1)
    exact restores_ifElse ha hb (hnested hinner (ihd hfloat.append.2.append.2))
  | loop _ _ _ _ _ iha ihb =>
    rw [Expr.leaves] at hfloat
    refine restores_fix (fun _ _ hinner => ?_) n
    have ha := hnested hinner (iha hfloat.append.1)
    exact restores_loop ha (hnested hinner (ihb hfloat.append.2))
  | closure hbs _ _ ih =>
    rw [Expr.leaves] at hfloat
    refine restores_fix (fun _ _ hinner => ?_) n
    exact restores_closure hbs (hnested hinner (ih hfloat.append.2))

end Parser

end Mixin
