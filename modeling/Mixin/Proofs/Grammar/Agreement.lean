import Mixin.Proofs.Grammar.Sites
import Mixin.Proofs.Tree.Unplaced

/-!
# Reading does not depend on places

Where two streams of tokens differ in places only, every parser does the same on both, and what it
reads, the error that it reports and the place where it stops are the same without their places.
-/

namespace Mixin

/-! ### Cursors -/

namespace Cursor

variable (c : Cursor)

@[simp] theorem peek_unplaced : c.unplaced.peek = c.peek.unplaced := by
  cases h : c.ahead <;> simp [peek, unplaced, h]

theorem peekNth_unplaced (n : Nat) : c.unplaced.peekNth n = (c.peekNth n).unplaced := by
  cases h : c.ahead[n]? <;> simp [peekNth, unplaced, h]

theorem isAt_unplaced (kind : TokenKind) : c.unplaced.isAt kind = c.isAt kind := by
  simp [isAt, Token.unplaced]

theorem isAtOnLine_unplaced (kind : TokenKind) :
    c.unplaced.isAtOnLine kind = c.isAtOnLine kind := by
  simp [isAtOnLine, isAt, Token.unplaced]

@[simp] theorem advance_unplaced : c.unplaced.advance = c.advance.unplaced := by
  obtain ⟨previous, ahead, final⟩ := c
  cases ahead <;> rfl

theorem skipWhile_unplaced {p : Token → Bool} (hp : ∀ t, p t.unplaced = p t) :
    c.unplaced.skipWhile p = (c.skipWhile p).unplaced := by
  suffices h : ∀ previous ahead, skipWhile.go p c.unplaced (previous.map Token.unplaced)
      (ahead.map Token.unplaced) = (skipWhile.go p c previous ahead).unplaced from
    h c.previous c.ahead
  intro previous ahead
  induction ahead generalizing previous with
  | nil => rfl
  | cons t rest ih =>
    rw [List.map_cons, skipWhile.go, skipWhile.go, hp t]
    cases p t with
    | true => exact ih (some t)
    | false => rfl

theorem unexpected_unplaced (expected : Expected) :
    c.unplaced.unexpected expected = (c.unexpected expected).unplaced := by
  rw [unexpected, unexpected, peek_unplaced]
  cases h : c.peek.kind <;> simp [Token.unplaced, SyntaxError.unplaced, h]

theorem closesBeforeArrow_unplaced (depth : Nat) (ts : List Token) :
    closesBeforeArrow depth (ts.map Token.unplaced) = closesBeforeArrow depth ts := by
  induction ts generalizing depth with
  | nil => rfl
  | cons t rest ih =>
    have hhead : (rest.map Token.unplaced).head?.any (fun u => u.kind == .arrow) =
        rest.head?.any fun u => u.kind == .arrow := by
      cases rest <;> rfl
    rw [List.map_cons, closesBeforeArrow, closesBeforeArrow]
    simp only [hhead, ih]
    rfl

theorem atClosure_unplaced : c.unplaced.atClosure = c.atClosure := by
  rw [atClosure, atClosure, isAt_unplaced, isAt_unplaced, peekNth_unplaced]
  rw [show c.unplaced.ahead = c.ahead.map Token.unplaced from rfl, closesBeforeArrow_unplaced]
  rfl

theorem atDefinition_unplaced : c.unplaced.atDefinition = c.atDefinition := by
  have hdrop : (c.unplaced.ahead.dropWhile fun t => t.kind.modifier?.isSome).head? =
      (c.ahead.dropWhile fun t => t.kind.modifier?.isSome).head?.map Token.unplaced := by
    rw [show c.unplaced.ahead = c.ahead.map Token.unplaced from rfl, List.dropWhile_map,
      List.head?_map]
    rfl
  rw [atDefinition, atDefinition, hdrop]
  cases (c.ahead.dropWhile fun t => t.kind.modifier?.isSome).head? with
  | none => rfl
  | some t =>
    obtain ⟨kind, lexeme, span, startsLine⟩ := t
    cases kind <;> rfl

theorem recover_unplaced : c.unplaced.recover = c.recover.unplaced := by
  suffices h : ∀ previous ahead, recover.go c.unplaced (previous.map Token.unplaced)
      (ahead.map Token.unplaced) = (recover.go c previous ahead).unplaced by
    have hgo := h c.advance.previous c.advance.ahead
    rw [recover, advance_unplaced]
    exact hgo
  intro previous ahead
  induction ahead generalizing previous with
  | nil => rfl
  | cons t rest ih =>
    have hhere := atDefinition_unplaced { c with previous := previous, ahead := t :: rest }
    simp only [List.map_cons, recover.go]
    rw [show t.unplaced.startsLine = t.startsLine from rfl]
    rw [show ({ c.unplaced with previous := previous.map Token.unplaced,
                                ahead := t.unplaced :: rest.map Token.unplaced } : Cursor) =
      unplaced { c with previous := previous, ahead := t :: rest } from rfl, hhere]
    split
    · rfl
    · exact ih (some t)

section Alike

variable {c d : Cursor}

/-- Places that see the same tokens without their places. -/
def Alike (c d : Cursor) : Prop := c.unplaced = d.unplaced

variable (h : c.Alike d)
include h

theorem Alike.peek : c.peek.unplaced = d.peek.unplaced := by
  rw [← peek_unplaced, ← peek_unplaced, h]

theorem Alike.kind : c.peek.kind = d.peek.kind := by
  have hpeek := congrArg Token.kind h.peek
  exact hpeek

theorem Alike.isAt (kind : TokenKind) : c.isAt kind = d.isAt kind := by
  rw [← isAt_unplaced, ← isAt_unplaced d, h]

theorem Alike.isAtOnLine (kind : TokenKind) : c.isAtOnLine kind = d.isAtOnLine kind := by
  rw [← isAtOnLine_unplaced, ← isAtOnLine_unplaced d, h]

theorem Alike.atClosure : c.atClosure = d.atClosure := by
  rw [← atClosure_unplaced, ← atClosure_unplaced d, h]

theorem Alike.advance : c.advance.Alike d.advance := by
  rw [Alike, ← advance_unplaced, ← advance_unplaced, h]

theorem Alike.skipWhile {p : Token → Bool} (hp : ∀ t, p t.unplaced = p t) :
    (c.skipWhile p).Alike (d.skipWhile p) := by
  rw [Alike, ← skipWhile_unplaced c hp, ← skipWhile_unplaced d hp, h]

theorem Alike.recover : c.recover.Alike d.recover := by
  rw [Alike, ← recover_unplaced, ← recover_unplaced, h]

theorem Alike.unexpected (expected : Expected) :
    (c.unexpected expected).unplaced = (d.unexpected expected).unplaced := by
  rw [← unexpected_unplaced, ← unexpected_unplaced, h]

theorem Alike.length : c.ahead.length = d.ahead.length := by
  have hlength := congrArg (fun c => c.ahead.length) h
  simpa [unplaced] using hlength

end Alike

end Cursor

/-! ### Parsers -/

/-- What becomes of reading at two places is the same but for places, as far as `f` tells. -/
inductive Outcome.Alike {α γ : Type} (f : α → γ) : Outcome α → Outcome α → Prop
  | done {a b c d} (hab : f a = f b) (hcd : c.Alike d) : Alike f (done a c) (done b d)
  | failed {e e' c d} (he : e.unplaced = e'.unplaced) (hcd : c.Alike d) :
    Alike f (failed e c) (failed e' d)
  | stuck : Alike f stuck stuck

/-- At places that are alike, `p` and `q` do the same and read what `f` does not tell apart. -/
def Parser.Agrees {α γ : Type} (f : α → γ) (p q : Parser α) : Prop :=
  ∀ c d, c.Alike d → (p.run c).Alike f (q.run d)

namespace Parser.Agrees

section Rules

variable {α β γ δ : Type} {f : α → γ} {g : β → δ} {p q : Parser α} {k l : α → Parser β}

theorem pure {a b : α} (h : f a = f b) :
    Agrees f (Pure.pure a : Parser α) (Pure.pure b : Parser α) :=
  fun _ _ hcd => .done h hcd

theorem fail {e e' : SyntaxError} (h : e.unplaced = e'.unplaced) :
    Agrees f (Parser.fail e) (Parser.fail e') :=
  fun _ _ hcd => .failed h hcd

theorem unexpected (expected : Expected) :
    Agrees f (Parser.unexpected expected) (Parser.unexpected expected) :=
  fun _ _ hcd => .failed (hcd.unexpected expected) hcd

theorem bind (hp : Agrees f p q) (hk : ∀ a b, f a = f b → Agrees g (k a) (l b)) :
    Agrees g (p >>= k) (q >>= l) := by
  intro c d hcd
  have hrun := hp c d hcd
  rw [run_bind, run_bind]
  generalize p.run c = o at hrun
  generalize q.run d = o' at hrun
  cases hrun with
  | done hab hrest => exact hk _ _ hab _ _ hrest
  | failed he hrest => exact .failed he hrest
  | stuck => exact .stuck

theorem look {u : Cursor → α} (hu : ∀ c d, c.Alike d → u c = u d)
    (hk : ∀ a, Agrees g (k a) (l a)) : Agrees g (Parser.look u >>= k) (Parser.look u >>= l) := by
  intro c d hcd
  change ((k (u c)).run c).Alike g ((l (u d)).run d)
  rw [hu c d hcd]
  exact hk (u d) c d hcd

theorem place {u : Cursor → α} (hk : ∀ a b, Agrees g (k a) (l b)) :
    Agrees g (Parser.look u >>= k) (Parser.look u >>= l) :=
  fun c d hcd => hk (u c) (u d) c d hcd

theorem peek {k l : Token → Parser β} (hk : ∀ t u, t.unplaced = u.unplaced → Agrees g (k t) (l u)) :
    Agrees g (Parser.look Cursor.peek >>= k) (Parser.look Cursor.peek >>= l) :=
  fun c d hcd => hk c.peek d.peek hcd.peek c d hcd

theorem option {p q : Parser (Option α)} {k l : Option α → Parser β}
    (hp : Agrees (Option.map f) p q) (hnone : Agrees g (k none) (l none))
    (hsome : ∀ a b, f a = f b → Agrees g (k (some a)) (l (some b))) :
    Agrees g (p >>= k) (q >>= l) := by
  refine hp.bind fun a? b? h => ?_
  cases a? with
  | none =>
    cases b? with
    | none => exact hnone
    | some b => cases h
  | some a =>
    cases b? with
    | none => cases h
    | some b => exact hsome a b (Option.some.inj h)

theorem next : Agrees Token.unplaced Parser.next Parser.next :=
  fun _ _ hcd => .done hcd.peek hcd.advance

theorem expect (kind : TokenKind) (expected : Expected) :
    Agrees Token.unplaced (Parser.expect kind expected) (Parser.expect kind expected) := by
  intro c d hcd
  simp only [Parser.expect, hcd.isAt kind]
  split
  · exact .done hcd.peek hcd.advance
  · exact .failed (hcd.unexpected expected) hcd

theorem eat? (kind : TokenKind) :
    Agrees (Option.map Token.unplaced) (Parser.eat? kind) (Parser.eat? kind) := by
  intro c d hcd
  simp only [Parser.eat?, hcd.isAt kind]
  split
  · exact .done (congrArg some hcd.peek) hcd.advance
  · exact .done rfl hcd

theorem many {item item' : Parser (Option α)} (hitem : Agrees (Option.map f) item item') :
    Agrees (List.map f) (Parser.many item) (Parser.many item') := by
  intro c d hcd
  change (runMany item c).Alike _ (runMany item' d)
  induction hn : c.ahead.length using Nat.strongRecOn generalizing c d with
  | ind n ih =>
    subst hn
    have hrun := hitem c d hcd
    rw [runMany, runMany]
    generalize item.run c = o at hrun
    generalize item'.run d = o' at hrun
    cases hrun with
    | failed he hrest => exact .failed he hrest
    | stuck => exact .stuck
    | @done a? b? rest rest' hab hrest =>
      cases a? with
      | none =>
        cases b? with
        | none => exact .done rfl hrest
        | some b => cases hab
      | some a =>
        cases b? with
        | none => cases hab
        | some b =>
          dsimp only
          rw [hrest.length, hcd.length]
          split
          next hlt =>
            have hothers := ih _ (by rw [hrest.length, hcd.length]; exact hlt) rest rest' hrest rfl
            generalize runMany item rest = others at hothers
            generalize runMany item' rest' = others' at hothers
            cases hothers with
            | done habs hstop =>
              refine .done ?_ hstop
              rw [List.map_cons, List.map_cons, Option.some.inj hab, habs]
            | failed he hstop => exact .failed he hstop
            | stuck => exact .stuck
          next => exact .stuck

theorem fix {body : Parser α → Parser α}
    (hbody : ∀ p q, Agrees f p q → Agrees f (body p) (body q)) :
    Agrees f (Parser.fix body) (Parser.fix body) := by
  intro c d hcd
  change (runFix body c).1.Alike f (runFix body d).1
  induction hn : c.ahead.length using Nat.strongRecOn generalizing c d with
  | ind n ih =>
    subst hn
    rw [runFix, runFix]
    refine hbody _ _ ?_ c d hcd
    intro c' d' hcd'
    have hlength := hcd.length
    have hlength' := hcd'.length
    by_cases hlt : c'.ahead.length < c.ahead.length
    · have hlt' : d'.ahead.length < d.ahead.length := by omega
      simp only [hlt, hlt', dite_true]
      exact ih _ hlt c' d' hcd' rfl
    · have hlt' : ¬ d'.ahead.length < d.ahead.length := by omega
      simp only [hlt, hlt', dite_false]
      exact .stuck

end Rules

/-! ### Shapes -/

section Shapes

variable {α γ : Type} {f : α → γ} {p q : Parser α}

theorem behind? (kind : TokenKind) (h : Agrees f p q) :
    Agrees (Option.map f) (Parser.behind? kind p) (Parser.behind? kind q) := by
  refine (eat? kind).option (pure rfl) fun _ _ _ => ?_
  exact h.bind fun a b hab => pure (congrArg some hab)

theorem commaList (h : Agrees f p q) :
    Agrees (List.map f) (Parser.commaList p) (Parser.commaList q) := by
  refine h.bind fun a b hab => ?_
  refine (many (h.behind? .comma)).bind fun as bs habs => pure ?_
  rw [List.map_cons, List.map_cons, hab, habs]

theorem enclosed (left right : TokenKind) (h : Agrees f p q) :
    Agrees (List.map f) (Parser.enclosed left right p) (Parser.enclosed left right q) := by
  refine (expect left _).bind fun _ _ _ => ?_
  refine (eat? right).option ?_ fun _ _ _ => pure rfl
  refine h.commaList.bind fun as bs habs => ?_
  exact (expect right _).bind fun _ _ _ => pure habs

theorem bracketedOnLine (h : Agrees f p q) :
    Agrees (List.map f) (Parser.bracketedOnLine p) (Parser.bracketedOnLine q) := by
  refine look (fun c d hcd => hcd.isAtOnLine _) fun onLine => ?_
  cases onLine with
  | true =>
    refine next.bind fun _ _ _ => ?_
    refine h.commaList.bind fun as bs habs => ?_
    exact (expect _ _).bind fun _ _ _ => pure habs
  | false => exact pure rfl

theorem skipSemicolons : Agrees (fun _ : Unit => ()) Parser.skipSemicolons Parser.skipSemicolons :=
  fun _ _ hcd => .done rfl (hcd.skipWhile fun _ => rfl)

theorem statementEnd (closing : TokenKind) :
    Agrees (fun _ : Unit => ()) (Parser.statementEnd closing) (Parser.statementEnd closing) := by
  intro c d hcd
  have hline : c.peek.startsLine = d.peek.startsLine := by
    have hpeek := congrArg Token.startsLine hcd.peek
    exact hpeek
  simp only [Parser.statementEnd, hcd.isAt, hline]
  split
  · exact .done rfl hcd
  · exact .failed (hcd.unexpected _) hcd

theorem statements (h : Agrees f p q) :
    Agrees (List.map f) (Parser.statements p) (Parser.statements q) := by
  refine (expect _ _).bind fun _ _ _ => many ?_
  refine skipSemicolons.bind fun _ _ _ => ?_
  refine (eat? _).option ?_ fun _ _ _ => pure rfl
  refine h.bind fun a b hab => ?_
  exact (statementEnd _).bind fun _ _ _ => pure (congrArg some hab)

end Shapes

theorem identifier : Agrees Ident.unplaced Parser.identifier Parser.identifier := by
  refine (expect _ _).bind fun t u htu => pure ?_
  simp only [Ident.unplaced, Token.lexeme_of_unplaced htu]

theorem memberName : Agrees Ident.unplaced Parser.memberName Parser.memberName := by
  refine look (fun c d hcd => hcd.isAt _) fun operator => ?_
  cases operator with
  | true =>
    refine next.bind fun t u htu => pure ?_
    simp only [Ident.unplaced, Token.lexeme_of_unplaced htu]
  | false => exact identifier

/-! ### Types -/

section Types

variable {p q : Parser TypeExpr}

theorem namedTypeWith (h : Agrees TypeExpr.unplaced p q) :
    Agrees NamedType.unplaced (Parser.namedTypeWith p) (Parser.namedTypeWith q) := by
  refine identifier.bind fun name name' hname => ?_
  refine h.bracketedOnLine.bind fun as bs habs => ?_
  exact place fun _ _ => pure (by simp only [NamedType.unplaced, hname, habs])

theorem parenthesizedType (h : Agrees TypeExpr.unplaced p q) (start start' : Span) :
    Agrees TypeExpr.unplaced (Parser.parenthesizedType p start)
      (Parser.parenthesizedType q start') := by
  refine (h.enclosed _ _).bind fun as bs habs => ?_
  refine (h.behind? _).option ?_ fun r r' hr => pure ?_
  · have htuple : ∀ s s', (TypeExpr.tuple as s).unplaced = (TypeExpr.tuple bs s').unplaced :=
      fun _ _ => by simp only [TypeExpr.unplaced, TypeExpr.unplacedAll_eq, habs]
    have hlength : as.length = bs.length := by simpa using congrArg List.length habs
    -- Only one type in parentheses is no tuple, and there is one on both sides or on neither.
    by_cases hone : as.length = 1
    · obtain ⟨a, rfl⟩ := List.length_eq_one_iff.mp hone
      obtain ⟨b, rfl⟩ := List.length_eq_one_iff.mp (hlength.symm.trans hone)
      exact pure (List.cons.inj habs).1
    · dsimp only
      split
      next => simp at hone
      next =>
        split
        next => simp [hlength] at hone
        next => exact place fun _ _ => pure (htuple _ _)
  · simp only [TypeExpr.unplaced, TypeExpr.unplacedAll_eq, habs, hr]

theorem typeBody (h : Agrees TypeExpr.unplaced p q) :
    Agrees TypeExpr.unplaced (Parser.typeBody p) (Parser.typeBody q) := by
  refine place fun start start' => ?_
  refine look (fun c d hcd => hcd.isAt _) fun parenthesis => ?_
  cases parenthesis with
  | true => exact h.parenthesizedType start start'
  | false =>
    refine h.namedTypeWith.bind fun n n' hn => ?_
    have htype : n.toTypeExpr.unplaced = n'.toTypeExpr.unplaced := by
      rw [← NamedType.toTypeExpr_unplaced, ← NamedType.toTypeExpr_unplaced, hn]
    refine look (fun c d hcd => hcd.isAtOnLine _) fun arrow => ?_
    cases arrow with
    | true =>
      refine next.bind fun _ _ _ => ?_
      refine h.bind fun r r' hr => pure ?_
      simp [TypeExpr.unplaced, htype, hr]
    | false => exact pure htype

theorem typeExpr : Agrees TypeExpr.unplaced Parser.typeExpr Parser.typeExpr :=
  fix fun _ _ h => h.typeBody

theorem namedType : Agrees NamedType.unplaced Parser.namedType Parser.namedType :=
  typeExpr.namedTypeWith

theorem typeAnnotation? :
    Agrees (Option.map TypeExpr.unplaced) Parser.typeAnnotation? Parser.typeAnnotation? :=
  typeExpr.behind? _

end Types

/-! ### Modifiers -/

theorem modifiers : Agrees ModifierList.unplaced Parser.modifiers Parser.modifiers := by
  refine (many (f := fun w : Modifier × Span => (w.1, Span.topOfFile)) ?_).bind
    fun ws ws' hws => pure (congrArg ModifierList.mk hws)
  refine look (fun c d hcd => congrArg TokenKind.modifier? hcd.kind) fun m? => ?_
  cases m? with
  | none => exact pure rfl
  | some m => exact next.bind fun _ _ _ => pure rfl

theorem rejectModifiers {ms ms' : ModifierList} (h : ms.unplaced = ms'.unplaced)
    (rejected : ModifierSet) (target : ModifierTarget) :
    Agrees (fun _ : Unit => ()) (Parser.rejectModifiers ms rejected target)
      (Parser.rejectModifiers ms' rejected target) := by
  have hfirst := congrArg (fun ms => ModifierList.firstOf? ms rejected) h
  simp only [ModifierList.firstOf?_unplaced] at hfirst
  rw [Parser.rejectModifiers, Parser.rejectModifiers]
  cases hms : ms.firstOf? rejected with
  | none =>
    cases hms' : ms'.firstOf? rejected with
    | none => exact pure rfl
    | some w' => simp [hms, hms'] at hfirst
  | some w =>
    cases hms' : ms'.firstOf? rejected with
    | none => simp [hms, hms'] at hfirst
    | some w' =>
      simp only [hms, hms', Option.map_some, Option.some.injEq, Prod.mk.injEq, and_true] at hfirst
      exact fail (by simp only [SyntaxError.unplaced, hfirst])

/-! ### Expressions -/

theorem binder : Agrees Binder.unplaced Parser.binder Parser.binder := by
  refine place fun _ _ => ?_
  refine modifiers.bind fun ms ms' hms => ?_
  refine (rejectModifiers hms _ _).bind fun _ _ _ => ?_
  refine identifier.bind fun name name' hname => ?_
  refine typeAnnotation?.bind fun type type' htype => ?_
  exact place fun _ _ => pure (by simp only [Binder.unplaced, hname, htype])

theorem binders : Agrees (List.map Binder.unplaced) Parser.binders Parser.binders := by
  refine look (fun c d hcd => hcd.isAt _) fun parenthesis => ?_
  cases parenthesis with
  | true => exact binder.enclosed _ _
  | false => exact binder.bind fun b b' hb => pure (by simp only [List.map_cons, hb])

theorem literal : Agrees Expr.unplaced Parser.literal Parser.literal := by
  refine peek fun t u htu => ?_
  have hexpr := congrArg Literal.expr? htu
  simp only [Literal.expr?_unplaced] at hexpr
  cases ht : Literal.expr? t with
  | none =>
    cases hu : Literal.expr? u with
    | none =>
      exact fail (by simp only [SyntaxError.unplaced, Token.lexeme_of_unplaced htu])
    | some e' => simp [ht, hu] at hexpr
  | some e =>
    cases hu : Literal.expr? u with
    | none => simp [ht, hu] at hexpr
    | some e' =>
      simp only [ht, hu, Option.map_some, Option.some.injEq] at hexpr
      exact next.bind fun _ _ _ => pure hexpr

theorem unaryOperator? :
    Agrees (Option.map Ident.unplaced) Parser.unaryOperator? Parser.unaryOperator? := by
  refine peek fun t u htu => ?_
  rw [Token.kind_of_unplaced htu, Token.lexeme_of_unplaced htu]
  split
  · exact next.bind fun _ _ _ => pure rfl
  · exact pure rfl

section Nested

variable {p q : Parser Expr} (h : Agrees Expr.unplaced p q)
include h

theorem closure : Agrees Expr.unplaced (Parser.closure p) (Parser.closure q) := by
  refine place fun _ _ => ?_
  refine binders.bind fun bs bs' hbs => ?_
  refine (expect _ _).bind fun _ _ _ => ?_
  exact h.bind fun e e' he => pure (by simp only [Expr.unplaced, hbs, he])

theorem guarded (keyword : TokenKind) :
    Agrees (fun r : Span × Expr => r.2.unplaced) (Parser.guarded p keyword)
      (Parser.guarded q keyword) := by
  refine (expect _ _).bind fun _ _ _ => ?_
  refine (expect _ _).bind fun _ _ _ => ?_
  refine h.bind fun e e' he => ?_
  exact (expect _ _).bind fun _ _ _ => pure he

theorem conditional : Agrees Expr.unplaced (Parser.conditional p) (Parser.conditional q) := by
  refine (h.guarded _).bind fun r r' hr => ?_
  refine h.bind fun e e' he => ?_
  refine (h.behind? _).option ?_ fun a a' ha => ?_
  · exact place fun _ _ => pure (by simp only [Expr.unplaced, hr, he])
  · exact place fun _ _ => pure (by simp only [Expr.unplaced, hr, he, ha])

theorem whileLoop : Agrees Expr.unplaced (Parser.whileLoop p) (Parser.whileLoop q) := by
  refine (h.guarded _).bind fun r r' hr => ?_
  exact h.bind fun e e' he => pure (by simp only [Expr.unplaced, hr, he])

theorem argumentsOnLine :
    Agrees (List.map Expr.unplaced) (Parser.argumentsOnLine p) (Parser.argumentsOnLine q) := by
  refine look (fun c d hcd => hcd.isAtOnLine _) fun onLine => ?_
  cases onLine with
  | true => exact h.enclosed _ _
  | false => exact pure rfl

theorem creation : Agrees Expr.unplaced (Parser.creation p) (Parser.creation q) := by
  refine (expect _ _).bind fun _ _ _ => ?_
  refine namedType.bind fun type type' htype => ?_
  refine h.argumentsOnLine.bind fun as as' has => ?_
  exact place fun _ _ => pure (by simp only [Expr.unplaced, Expr.unplacedAll_eq, htype, has])

theorem statement : Agrees Stmt.unplaced (Parser.statement p) (Parser.statement q) := by
  refine look (fun c d hcd => hcd.kind) fun kind => ?_
  split
  next b =>
    refine next.bind fun _ _ _ => ?_
    refine identifier.bind fun name name' hname => ?_
    refine typeAnnotation?.bind fun type type' htype => ?_
    refine (expect _ _).bind fun _ _ _ => ?_
    exact h.bind fun e e' he => pure (by simp only [Stmt.unplaced, hname, htype, he])
  next => exact h.bind fun e e' he => pure (by simp only [Stmt.unplaced, he])

theorem block : Agrees Expr.unplaced (Parser.block p) (Parser.block q) := by
  refine place fun _ _ => ?_
  refine h.statement.statements.bind fun ss ss' hss => ?_
  exact place fun _ _ => pure (by simp only [Expr.unplaced, Stmt.unplacedAll_eq, hss])

theorem parenthesized : Agrees Expr.unplaced (Parser.parenthesized p) (Parser.parenthesized q) := by
  refine (expect _ _).bind fun _ _ _ => ?_
  refine (eat? _).option ?_ fun _ _ _ => pure rfl
  refine h.bind fun e e' he => ?_
  exact (expect _ _).bind fun _ _ _ => pure he

theorem simple : Agrees Expr.unplaced (Parser.simple p) (Parser.simple q) := by
  refine look (fun c d hcd => hcd.kind) fun kind => ?_
  split
  · exact literal
  · exact literal
  · exact literal
  · exact literal
  · exact next.bind fun _ _ _ => pure rfl
  · exact next.bind fun _ _ _ => pure rfl
  · exact next.bind fun _ _ _ => pure rfl
  · exact next.bind fun _ _ _ => pure rfl
  · exact identifier.bind fun name name' hname => pure (by simp only [Expr.unplaced, hname])
  · exact h.creation
  · exact h.block
  · exact h.parenthesized
  · exact unexpected _

theorem suffix? : Agrees (Option.map Suffix.unplaced) (Parser.suffix? p) (Parser.suffix? q) := by
  refine (eat? _).option ?_ fun _ _ _ => ?_
  · refine look (fun c d hcd => hcd.isAtOnLine _) fun onLine => ?_
    cases onLine with
    | true =>
      refine (h.enclosed _ _).bind fun as as' has => ?_
      exact place fun _ _ => pure (by simp only [Option.map_some, Suffix.unplaced, has])
    | false => exact pure rfl
  · exact memberName.bind fun name name' hname =>
      pure (by simp only [Option.map_some, Suffix.unplaced, hname])

theorem suffixed : Agrees Expr.unplaced (Parser.suffixed p) (Parser.suffixed q) := by
  refine h.simple.bind fun e e' he => ?_
  refine (many h.suffix?).bind fun ss ss' hss => pure ?_
  rw [Suffix.unplaced_foldl, Suffix.unplaced_foldl, he, hss]

theorem operand : Agrees Expr.unplaced (Parser.operand p) (Parser.operand q) := by
  refine (many unaryOperator?).bind fun os os' hos => ?_
  refine h.suffixed.bind fun e e' he => pure ?_
  rw [Expr.unplaced_foldr_unary, Expr.unplaced_foldr_unary, hos, he]

theorem operation? :
    Agrees (Option.map fun next : Ident × Expr => (next.1.unplaced, next.2.unplaced))
      (Parser.operation? p) (Parser.operation? q) := by
  refine look (fun c d hcd => hcd.isAtOnLine _) fun onLine => ?_
  cases onLine with
  | true =>
    refine next.bind fun t u htu => ?_
    refine h.operand.bind fun e e' he => pure ?_
    simp only [Option.map_some, Ident.unplaced, Token.lexeme_of_unplaced htu, he]
  | false => exact pure rfl

theorem operations : Agrees Expr.unplaced (Parser.operations p) (Parser.operations q) := by
  refine h.operand.bind fun e e' he => ?_
  refine (many h.operation?).bind fun rest rest' hrest => pure ?_
  rw [Operator.unplaced_tree, Operator.unplaced_tree, he, hrest]

theorem expressionBody :
    Agrees Expr.unplaced (Parser.expressionBody p) (Parser.expressionBody q) := by
  refine look (fun c d hcd => hcd.isAt _) fun atIf => ?_
  cases atIf with
  | true => exact h.conditional
  | false =>
    refine look (fun c d hcd => hcd.isAt _) fun atWhile => ?_
    cases atWhile with
    | true => exact h.whileLoop
    | false =>
      refine look (fun c d hcd => hcd.atClosure) fun atClosure => ?_
      cases atClosure with
      | true => exact h.closure
      | false =>
        refine place fun _ _ => ?_
        refine h.operations.bind fun e e' he => ?_
        refine look (fun c d hcd => hcd.isAtOnLine _) fun equals => ?_
        cases equals with
        | true =>
          refine next.bind fun _ _ _ => ?_
          exact h.bind fun v v' hv => pure (by simp only [Expr.unplaced, he, hv])
        | false => exact pure he

end Nested

theorem expression : Agrees Expr.unplaced Parser.expression Parser.expression :=
  fix fun _ _ h => h.expressionBody

/-! ### Definitions -/

theorem variance : Agrees (fun v : Variance => v) Parser.variance Parser.variance := by
  refine peek fun t u htu => ?_
  rw [Token.kind_of_unplaced htu, Token.lexeme_of_unplaced htu]
  split
  · split
    · exact next.bind fun _ _ _ => pure rfl
    · exact next.bind fun _ _ _ => pure rfl
    · exact unexpected _
  · exact pure rfl

theorem typeParameter :
    Agrees TypeParameter.unplaced Parser.typeParameter Parser.typeParameter := by
  refine place fun _ _ => ?_
  refine variance.bind fun v v' hv => ?_
  refine identifier.bind fun name name' hname => ?_
  refine (typeExpr.behind? _).bind fun bound bound' hbound => ?_
  exact place fun _ _ => pure (by simp only [TypeParameter.unplaced, hv, hname, hbound])

theorem typeParameters :
    Agrees (List.map TypeParameter.unplaced) Parser.typeParameters Parser.typeParameters :=
  typeParameter.bracketedOnLine

theorem parameterTail {ms ms' : ModifierList} (h : ms.unplaced = ms'.unplaced)
    (binding : Option Binding) (start start' : Span) :
    Agrees Parameter.unplaced (Parser.parameterTail start ms binding)
      (Parser.parameterTail start' ms' binding) := by
  refine identifier.bind fun name name' hname => ?_
  refine (expect _ _).bind fun _ _ _ => ?_
  refine typeExpr.bind fun type type' htype => ?_
  refine (expression.behind? _).bind fun default default' hdefault => ?_
  exact place fun _ _ => pure (by simp only [Parameter.unplaced, h, hname, htype, hdefault])

theorem classParameter (isCase : Bool) :
    Agrees Parameter.unplaced (Parser.classParameter isCase) (Parser.classParameter isCase) := by
  refine place fun start start' => ?_
  refine modifiers.bind fun ms ms' hms => ?_
  refine (rejectModifiers hms _ _).bind fun _ _ _ => ?_
  refine look (fun c d hcd => hcd.kind) fun kind => ?_
  split
  next b => exact next.bind fun _ _ _ => parameterTail hms (some b) start start'
  next => exact parameterTail hms _ start start'

theorem methodParameter :
    Agrees Parameter.unplaced Parser.methodParameter Parser.methodParameter := by
  refine place fun start start' => ?_
  refine modifiers.bind fun ms ms' hms => ?_
  refine (rejectModifiers hms _ _).bind fun _ _ _ => ?_
  exact parameterTail hms none start start'

theorem classParameters (kind : TypeKind) (isCase : Bool) :
    Agrees (List.map Parameter.unplaced) (Parser.classParameters kind isCase)
      (Parser.classParameters kind isCase) := by
  refine look (fun c d hcd => hcd.isAtOnLine _) fun onLine => ?_
  cases onLine with
  | true =>
    cases kind with
    | «class» => exact (classParameter isCase).enclosed _ _
    | trait => exact place fun _ _ => fail rfl
    | object => exact place fun _ _ => fail rfl
  | false => exact pure rfl

theorem methodClause? :
    Agrees (Option.map (List.map Parameter.unplaced)) Parser.methodClause?
      Parser.methodClause? := by
  refine look (fun c d hcd => hcd.isAtOnLine _) fun onLine => ?_
  cases onLine with
  | true =>
    refine (methodParameter.enclosed _ _).bind fun ps ps' hps => pure ?_
    simp only [Option.map_some, hps]
  | false => exact pure rfl

theorem parent : Agrees Parent.unplaced Parser.parent Parser.parent := by
  refine namedType.bind fun type type' htype => ?_
  refine expression.argumentsOnLine.bind fun as as' has => ?_
  exact place fun _ _ => pure (by simp only [Parent.unplaced, htype, has])

theorem parents : Agrees (List.map Parent.unplaced) Parser.parents Parser.parents := by
  refine (parent.behind? _).option (pure rfl) fun p p' hp => ?_
  refine (many (parent.behind? _)).bind fun ps ps' hps => pure ?_
  simp only [List.map_cons, hp, hps]

theorem initializer : Agrees Initializer.unplaced Parser.initializer Parser.initializer := by
  refine (expression.behind? _).option (place fun _ _ => pure rfl) fun e e' he => pure ?_
  simp only [Initializer.unplaced, he]

theorem checkFieldModifiers (b : Binding) {ms ms' : ModifierList} (h : ms.unplaced = ms'.unplaced) :
    Agrees (fun _ : Unit => ()) (Parser.checkFieldModifiers b ms)
      (Parser.checkFieldModifiers b ms') := by
  cases b with
  | val => exact pure rfl
  | var => exact rejectModifiers h _ _

theorem field (b : Binding) {ms ms' : ModifierList} (h : ms.unplaced = ms'.unplaced)
    (start start' : Span) :
    Agrees Field.unplaced (Parser.field start ms b) (Parser.field start' ms' b) := by
  refine next.bind fun _ _ _ => ?_
  refine (checkFieldModifiers b h).bind fun _ _ _ => ?_
  refine identifier.bind fun name name' hname => ?_
  refine typeAnnotation?.bind fun type type' htype => ?_
  refine initializer.bind fun i i' hi => ?_
  exact place fun _ _ => pure (by simp only [Field.unplaced, h, hname, htype, hi])

theorem methodBody :
    Agrees (Option.map Expr.unplaced) Parser.methodBody Parser.methodBody := by
  refine (expression.behind? _).option ?_ fun e e' he => pure (congrArg some he)
  refine look (fun c d hcd => hcd.isAtOnLine _) fun onLine => ?_
  cases onLine with
  | true => exact expression.block.bind fun e e' he => pure (congrArg some he)
  | false => exact pure rfl

theorem method {ms ms' : ModifierList} (h : ms.unplaced = ms'.unplaced) (start start' : Span) :
    Agrees Method.unplaced (Parser.method start ms) (Parser.method start' ms') := by
  refine (expect _ _).bind fun _ _ _ => ?_
  refine memberName.bind fun name name' hname => ?_
  refine typeParameters.bind fun tps tps' htps => ?_
  refine (many methodClause?).bind fun cs cs' hcs => ?_
  refine typeAnnotation?.bind fun result result' hresult => ?_
  refine place fun _ _ => ?_
  refine methodBody.bind fun body body' hbody => pure ?_
  simp only [Method.unplaced, h, hname, htps, hcs, hresult, hbody]

theorem member : Agrees Member.unplaced Parser.member Parser.member := by
  refine place fun start start' => ?_
  refine modifiers.bind fun ms ms' hms => ?_
  refine (rejectModifiers hms _ _).bind fun _ _ _ => ?_
  refine look (fun c d hcd => hcd.kind) fun kind => ?_
  split
  next b =>
    refine (field b hms start start').bind fun f f' hf => pure ?_
    simp only [Member.unplaced, hf]
  next =>
    refine (rejectModifiers hms _ _).bind fun _ _ _ => ?_
    refine (method hms start start').bind fun m m' hm => pure ?_
    simp only [Member.unplaced, hm]
  next => exact unexpected _

theorem members : Agrees (List.map Member.unplaced) Parser.members Parser.members := by
  refine look (fun c d hcd => hcd.isAtOnLine _) fun onLine => ?_
  cases onLine with
  | true => exact member.statements
  | false => exact pure rfl

theorem checkTypeModifiers (kind : TypeKind) {ms ms' : ModifierList}
    (h : ms.unplaced = ms'.unplaced) :
    Agrees (fun _ : Unit => ()) (Parser.checkTypeModifiers kind ms)
      (Parser.checkTypeModifiers kind ms') := by
  refine (rejectModifiers h _ _).bind fun _ _ _ => ?_
  cases kind with
  | «class» => exact pure rfl
  | trait => exact rejectModifiers h _ _
  | object => exact rejectModifiers h _ _

theorem typeKind : Agrees (fun kind : TypeKind => kind) Parser.typeKind Parser.typeKind := by
  refine look (fun c d hcd => hcd.kind) fun kind => ?_
  split
  · exact next.bind fun _ _ _ => pure rfl
  · exact unexpected _

theorem typeDef : Agrees TypeDef.unplaced Parser.typeDef Parser.typeDef := by
  refine place fun _ _ => ?_
  refine modifiers.bind fun ms ms' hms => ?_
  refine typeKind.bind fun kind kind' hkind => ?_
  obtain rfl : kind = kind' := hkind
  refine (checkTypeModifiers kind hms).bind fun _ _ _ => ?_
  refine identifier.bind fun name name' hname => ?_
  refine typeParameters.bind fun tps tps' htps => ?_
  have hcase : ms.contains .case = ms'.contains .case := by
    rw [← ModifierList.contains_unplaced, hms, ModifierList.contains_unplaced]
  rw [hcase]
  refine (classParameters kind _).bind fun ps ps' hps => ?_
  refine parents.bind fun parents parents' hparents => ?_
  refine members.bind fun members members' hmembers => ?_
  refine (statementEnd _).bind fun _ _ _ => pure ?_
  simp only [TypeDef.unplaced, hms, hname, htps, hps, hparents, hmembers]

end Parser.Agrees

/-! ### Programs -/

namespace Program

def Reading.unplaced (r : Reading) : Reading :=
  ⟨r.definitions.map TypeDef.unplaced, r.errors.map SyntaxError.unplaced⟩

theorem readFrom_unplaced {c d : Cursor} (hcd : c.Alike d) :
    (readFrom c).unplaced = (readFrom d).unplaced := by
  induction hn : c.ahead.length using Nat.strongRecOn generalizing c d with
  | ind n ih =>
    subst hn
    have hlength := hcd.length
    have hstart := hcd.skipWhile (p := fun t => t.kind == .semicolon) fun _ => rfl
    have hrun := Parser.Agrees.typeDef _ _ hstart
    rw [readFrom, readFrom]
    simp only [hstart.isAt .eof, hlength]
    split
    next => rfl
    next =>
      generalize Parser.typeDef.run (c.skipWhile fun t => t.kind == .semicolon) = o at hrun
      generalize Parser.typeDef.run (d.skipWhile fun t => t.kind == .semicolon) = o' at hrun
      cases hrun with
      | @done a b rest rest' hab hrest =>
        simp only [hrest.length]
        split
        next hlt =>
          have hothers := ih _ (by rw [hrest.length, hlength]; exact hlt) hrest rfl
          simp only [Reading.unplaced, Reading.mk.injEq, List.map_cons, hab] at hothers ⊢
          exact ⟨by rw [hothers.1], hothers.2⟩
        next => simp only [Reading.unplaced, List.map_cons, hab]
      | @failed e e' rest rest' he hrest =>
        have hrecover := hrest.recover
        simp only [hrecover.length]
        split
        next hlt =>
          have hothers := ih _ (by rw [hrecover.length, hlength]; exact hlt) hrecover rfl
          simp only [Reading.unplaced, Reading.mk.injEq, List.map_cons, he] at hothers ⊢
          exact ⟨hothers.1, by rw [hothers.2]⟩
        next => simp only [Reading.unplaced, List.map_cons, he]
      | stuck =>
        have hunexpected := hstart.unexpected .statementEnd
        simp only [Reading.unplaced, List.map_cons, hunexpected]

/-- Streams that differ in places only are the same program, or have the same errors, but for
places. -/
theorem ofTokens_alike {stream stream' : TokenStream} (h : stream.unplaced = stream'.unplaced) :
    (∃ p p', ofTokens stream = .ok p ∧ ofTokens stream' = .ok p' ∧ p.unplaced = p'.unplaced) ∨
      ∃ es es', ofTokens stream = .error es ∧ ofTokens stream' = .error es' ∧
        es.map SyntaxError.unplaced = es'.map SyntaxError.unplaced := by
  have hstart : (Cursor.ofStream stream).Alike (Cursor.ofStream stream') := by
    obtain ⟨htokens, hfinal⟩ := TokenStream.mk.inj h
    simp only [Cursor.Alike, Cursor.unplaced, Cursor.ofStream, htokens, hfinal]
  have hreading := readFrom_unplaced hstart
  simp only [Reading.unplaced, Reading.mk.injEq] at hreading
  have hempty : (readFrom (.ofStream stream)).errors.isEmpty =
      (readFrom (.ofStream stream')).errors.isEmpty := by
    have hisEmpty := congrArg List.isEmpty hreading.2
    simpa only [List.isEmpty_map] using hisEmpty
  simp only [ofTokens, hempty]
  split
  next =>
    refine .inl ⟨_, _, rfl, rfl, ?_⟩
    simp only [unplaced, hreading.1]
  next => exact .inr ⟨_, _, rfl, rfl, hreading.2⟩

end Program

end Mixin
