import Mixin.Proofs.Grammar.Sites
import Mixin.Proofs.Grammar.Spelling

/-!
# What is read is spelled

Every parser reads only what the tokens that it passes spell, and comes to an end: it is never
stuck. A parser that fails reports a token that it has passed or the one at which it gave up, and it
has passed no word that introduces a definition. All this is said by `Parser.Reads`, for places with
fewer than a given number of tokens ahead; this number is what the nesting of expressions and types
counts down.
-/

namespace Mixin

open Spelling

/-! ### Places before the end of a text -/

namespace Cursor

variable {c d : Cursor} {ts : List Token} {m n : Nat}

/-- Fewer than `n` tokens stand ahead, and behind them the end of the text. -/
structure Within (c : Cursor) (n : Nat) : Prop where
  final : c.final.kind = .eof
  length : c.ahead.length < n

theorem Passes.within (h : c.Passes ts d) (hc : c.Within n) (hm : n ≤ m + ts.length) :
    d.Within m where
  final := by
    rw [h.final]
    exact hc.final
  length := by
    have hlength := congrArg List.length h.ahead
    have hn := hc.length
    simp only [List.length_append] at hlength
    omega

theorem Within.mono (hc : c.Within m) (h : m ≤ n) : c.Within n :=
  ⟨hc.final, Nat.lt_of_lt_of_le hc.length h⟩

theorem passes_of_peek (hfinal : c.final.kind = .eof) (hpeek : c.peek.kind ≠ .eof) :
    c.Passes [c.peek] c.advance := by
  cases hahead : c.ahead with
  | nil =>
    have hpeek' : c.peek = c.final := by simp [peek, hahead]
    rw [hpeek'] at hpeek
    exact absurd hfinal hpeek
  | cons t rest =>
    have hpeek' : c.peek = t := by simp [peek, hahead]
    rw [hpeek']
    exact passes_advance hahead

theorem passes_skipWhile (p : Token → Bool) (c : Cursor) :
    ∃ ts, c.Passes ts (c.skipWhile p) ∧ ∀ t ∈ ts, p t = true := by
  suffices h : ∀ previous ahead, ∃ ts,
      Passes ⟨previous, ahead, c.final⟩ ts (skipWhile.go p c previous ahead) ∧
        ∀ t ∈ ts, p t = true from h c.previous c.ahead
  intro previous ahead
  induction ahead generalizing previous with
  | nil => exact ⟨[], .refl _, by simp⟩
  | cons t rest ih =>
    rw [skipWhile.go]
    split
    next ht =>
      obtain ⟨ts, hts, hall⟩ := ih (some t)
      have hpass : Passes ⟨previous, t :: rest, c.final⟩ [t] ⟨some t, rest, c.final⟩ :=
        ⟨rfl, rfl, rfl⟩
      refine ⟨[t] ++ ts, hpass.trans hts, ?_⟩
      intro u hu
      rcases List.mem_append.mp hu with hu | hu
      · rw [List.mem_singleton.mp hu]
        exact ht
      · exact hall u hu
    next => exact ⟨[], .refl _, by simp⟩

theorem Passes.eq_of_nil (h : c.Passes [] d) : c = d := by
  obtain ⟨previous, ahead, final⟩ := c
  obtain ⟨previous', ahead', final'⟩ := d
  obtain ⟨hahead, hprevious, hfinal⟩ := h
  simp_all

theorem skipWhile_eq_self {p : Token → Bool} (h : p c.peek = false) : c.skipWhile p = c := by
  obtain ⟨previous, ahead, final⟩ := c
  cases ahead with
  | nil => rfl
  | cons t rest =>
    have ht : p t = false := h
    simp [Cursor.skipWhile, skipWhile.go, ht]

theorem Passes.peek_span (h : c.Passes ts d) (hts : ts ≠ []) : c.peek.span = firstSpan ts := by
  obtain ⟨t, ts, rfl⟩ := List.exists_cons_of_ne_nil hts
  simp [peek, h.ahead]

theorem Passes.previousSpan (h : c.Passes ts d) (hts : ts ≠ []) :
    d.previousSpan = lastSpan ts := by
  have hprevious := h.previous
  rw [List.getLast?_eq_some_getLast hts, Option.some_or] at hprevious
  rw [Cursor.previousSpan, hprevious, lastSpan, List.getLast?_eq_some_getLast hts]
  rfl

theorem Passes.afterPrevious (h : c.Passes ts d) (hts : ts ≠ []) :
    d.afterPrevious = afterLast ts := by
  have hprevious := h.previous
  rw [List.getLast?_eq_some_getLast hts, Option.some_or] at hprevious
  rw [Cursor.afterPrevious, hprevious, afterLast, List.getLast?_eq_some_getLast hts]
  rfl

end Cursor

/-! ### Tokens inside definitions -/

/-- Whether tokens of a kind may stand in a definition behind its head. -/
def TokenKind.isInner : TokenKind → Bool
  | typeKind _ => false
  | eof => false
  | _ => true

namespace Token

variable {ts us hs : List Token}

def Inner (ts : List Token) : Prop := ∀ t ∈ ts, t.kind.isInner = true

/-- Only modifiers stand before a word that introduces a definition. -/
def OneHead (ts : List Token) : Prop :=
  ∀ hs w us, ts = hs ++ w :: us → w.kind.isInner = false → ∀ t ∈ hs, t.kind.modifier?.isSome = true

theorem OneHead.append (hts : OneHead ts) (hus : Inner us) : OneHead (ts ++ us) := by
  rintro xs w ys heq hw
  rcases List.append_eq_append_iff.mp heq with ⟨zs, rfl, rfl⟩ | ⟨zs, rfl, hzs⟩
  · simp [hus w (by simp)] at hw
  · cases zs with
    | nil =>
      rw [List.nil_append] at hzs
      simp [hus w (by simp [← hzs])] at hw
    | cons z zs =>
      obtain ⟨rfl, rfl⟩ := List.cons.inj hzs
      exact hts xs w zs rfl hw

theorem oneHead_concat (hhs : ∀ t ∈ hs, t.kind.modifier?.isSome = true) (w : Token) :
    OneHead (hs ++ [w]) := by
  rintro xs v ys heq -
  rcases List.append_eq_append_iff.mp heq with ⟨zs, rfl, hzs⟩ | ⟨zs, rfl, -⟩
  · cases zs with
    | nil => simpa using hhs
    | cons z zs => simp at hzs
  · exact fun t ht => hhs t (List.mem_append_left _ ht)

end Token

/-- What holds of the tokens passed so far, and goes on to hold when more of them are passed that
may stand in a definition behind its head. -/
structure Trail where
  Holds : List Token → Prop
  nil : Holds []
  append {ts us : List Token} (hts : Holds ts) (hus : Token.Inner us) : Holds (ts ++ us)

namespace Trail

def inner : Trail where
  Holds := Token.Inner
  nil := by simp [Token.Inner]
  append hts hus := List.forall_mem_append.mpr ⟨hts, hus⟩

def oneHead : Trail where
  Holds := Token.OneHead
  nil := by simp [Token.OneHead]
  append := Token.OneHead.append

/-- The tokens `ts` lead from `c` to `d`. -/
structure Leads (I : Trail) (c : Cursor) (ts : List Token) (d : Cursor) : Prop extends
    Cursor.Passes c ts d where
  holds : I.Holds ts

variable {I : Trail} {c d e : Cursor} {ts us : List Token}

theorem start (c : Cursor) : I.Leads c [] c := ⟨.refl c, I.nil⟩

theorem Leads.extend (h : I.Leads c ts d) (h' : inner.Leads d us e) : I.Leads c (ts ++ us) e :=
  ⟨h.toPasses.trans h'.toPasses, I.append h.holds h'.holds⟩

theorem leads_of_peek {kind : TokenKind} (hfinal : c.final.kind = .eof) (hpeek : c.peek.kind = kind)
    (hkind : kind.isInner = true) : inner.Leads c [c.peek] c.advance where
  toPasses := by
    refine Cursor.passes_of_peek hfinal fun heof => ?_
    rw [← hpeek, heof] at hkind
    cases hkind
  holds := List.forall_mem_singleton.mpr (hpeek ▸ hkind)

end Trail

namespace Spelling.OfModifiers

variable {hs : List Token} {ms : ModifierList}

theorem exists_token (h : OfModifiers hs ms) {w : Modifier × Span} (hw : w ∈ ms.written) :
    ∃ t ∈ hs, w.2 = t.span := by
  have hmem := List.mem_map_of_mem (f := fun w => (TokenKind.modifier w.1, w.2)) hw
  rw [← h] at hmem
  obtain ⟨t, ht, heq⟩ := List.mem_map.mp hmem
  exact ⟨t, ht, (congrArg Prod.snd heq).symm⟩

theorem isSome_modifier? (h : OfModifiers hs ms) : ∀ t ∈ hs, t.kind.modifier?.isSome = true := by
  intro t ht
  have hmem := List.mem_map_of_mem (f := fun t : Token => (t.kind, t.span)) ht
  rw [h] at hmem
  obtain ⟨w, -, hw⟩ := List.mem_map.mp hmem
  have hkind : TokenKind.modifier w.1 = t.kind := congrArg Prod.fst hw
  rw [← hkind]
  rfl

end Spelling.OfModifiers

/-! ### Reading -/

theorem Cursor.span_unexpected (c : Cursor) (expected : Expected) :
    (c.unexpected expected).span = c.peek.span := by
  unfold Cursor.unexpected
  split <;> rfl

/-- What becomes of reading at `c`: what was read is spelled by the tokens passed, and an error
stands at one of them or at the token where reading gave up. In any case reading ends. -/
def Outcome.Spells {α : Type} (I : Trail) (c : Cursor) (R : Spelling α) : Outcome α → Prop
  | done a rest => ∃ ts, I.Leads c ts rest ∧ R ts a
  | failed e rest => ∃ ts, I.Leads c ts rest ∧ ∃ t ∈ ts ++ [rest.peek], e.span = t.span
  | stuck => False

/-- With fewer than `n` tokens ahead, `p` reads what the tokens that it passes spell. -/
def Parser.Reads {α : Type} (p : Parser α) (n : Nat) (R : Spelling α) : Prop :=
  ∀ c, c.Within n → (p.run c).Spells .inner c R

section Rules

variable {α β : Type} {I : Trail} {c d : Cursor} {ts : List Token} {m n : Nat} {p : Parser α}
  {f : α → Parser β} {Q : Spelling α} {R : Spelling β}

theorem Parser.Reads.mono (h : p.Reads n Q) (hm : m ≤ n) : p.Reads m Q :=
  fun c hc => h c (hc.mono hm)

theorem Outcome.Spells.imp {o : Outcome α} {Q' : Spelling α} (h : o.Spells I c Q)
    (hQ : ∀ ts a, Q ts a → Q' ts a) : o.Spells I c Q' := by
  cases o with
  | done a rest =>
    obtain ⟨ts, hts, ha⟩ := h
    exact ⟨ts, hts, hQ ts a ha⟩
  | failed => exact h
  | stuck => exact h

theorem Parser.Reads.imp {Q' : Spelling α} (h : p.Reads n Q) (hQ : ∀ ts a, Q ts a → Q' ts a) :
    p.Reads n Q' :=
  fun c hc => (h c hc).imp hQ

theorem Outcome.Spells.look {g : Cursor → α} (h : ((f (g d)).run d).Spells I c R) :
    ((Parser.look g >>= f).run d).Spells I c R :=
  h

theorem Outcome.Spells.bind (hp : (p.run d).Spells I c Q)
    (hf : ∀ us a e, Q us a → I.Leads c us e → ((f a).run e).Spells I c R) :
    ((p >>= f).run d).Spells I c R := by
  rw [Parser.run_bind]
  cases hrun : p.run d with
  | done a rest =>
    rw [hrun] at hp
    obtain ⟨us, hus, ha⟩ := hp
    exact hf us a rest ha hus
  | failed =>
    rw [hrun] at hp
    exact hp
  | stuck =>
    rw [hrun] at hp
    exact hp

namespace Trail.Leads

variable (h : I.Leads c ts d)
include h

theorem spells_pure {b : β} (hb : R ts b) : ((pure b : Parser β).run d).Spells I c R :=
  ⟨ts, h, hb⟩

theorem spells_failed {e : SyntaxError} {t : Token} (ht : t ∈ ts ++ [d.peek])
    (he : e.span = t.span) : (Outcome.failed e d).Spells I c R :=
  ⟨ts, h, t, ht, he⟩

theorem spells_refused {e : SyntaxError} (he : e.span = d.peek.span) :
    (Outcome.failed e d).Spells I c R :=
  h.spells_failed (by simp) he

theorem spells_unexpected (expected : Expected) :
    ((Parser.unexpected expected).run d).Spells I c R :=
  h.spells_refused (d.span_unexpected expected)

theorem spells {o : Outcome β} {Q : Spelling β} (ho : o.Spells .inner d Q)
    (hR : ∀ us b, Q us b → R (ts ++ us) b) : o.Spells I c R := by
  cases o with
  | done b rest =>
    obtain ⟨us, hus, hb⟩ := ho
    exact ⟨ts ++ us, h.extend hus, hR us b hb⟩
  | failed e rest =>
    obtain ⟨us, hus, t, ht, he⟩ := ho
    exact ⟨ts ++ us, h.extend hus, t, by simp_all, he⟩
  | stuck => exact ho

theorem spells_bind (hp : (p.run d).Spells .inner d Q)
    (hf : ∀ us a e, Q us a → I.Leads c (ts ++ us) e → ((f a).run e).Spells I c R) :
    ((p >>= f).run d).Spells I c R := by
  have hc := h.spells (R := fun vs a => ∃ us, vs = ts ++ us ∧ Q us a) hp
    fun us a ha => ⟨us, rfl, ha⟩
  refine hc.bind ?_
  rintro _ a e ⟨us, rfl, ha⟩ he
  exact hf us a e ha he

theorem bind (hc : c.Within n) (hp : p.Reads n Q)
    (hf : ∀ us a e, Q us a → I.Leads c (ts ++ us) e → ((f a).run e).Spells I c R) :
    ((p >>= f).run d).Spells I c R :=
  h.spells_bind (hp d (h.within hc (Nat.le_add_right ..))) hf

theorem bindInner (hc : c.Within (n + 1)) (hts : ts ≠ []) (hp : p.Reads n Q)
    (hf : ∀ us a e, Q us a → I.Leads c (ts ++ us) e → ((f a).run e).Spells I c R) :
    ((p >>= f).run d).Spells I c R := by
  have hpos := List.length_pos_iff.mpr hts
  exact h.spells_bind (hp d (h.within hc (by omega))) hf

theorem leads_peek {kind : TokenKind} (hc : c.Within n) (hpeek : d.peek.kind = kind)
    (hkind : kind.isInner = true) :
    I.Leads c (ts ++ [d.peek]) d.advance :=
  h.extend (leads_of_peek (h.within hc (Nat.le_add_right ..)).final hpeek hkind)

theorem bind_next {f : Token → Parser β} {kind : TokenKind} (hc : c.Within n)
    (hpeek : d.peek.kind = kind) (hkind : kind.isInner = true)
    (hf : ∀ e, I.Leads c (ts ++ [d.peek]) e → ((f d.peek).run e).Spells I c R) :
    ((Parser.next >>= f).run d).Spells I c R :=
  hf d.advance (h.leads_peek hc hpeek hkind)

theorem bind_expect {f : Token → Parser β} {kind : TokenKind} {expected : Expected}
    (hc : c.Within n) (hkind : kind.isInner = true)
    (hf : ∀ t e, t.kind = kind → I.Leads c (ts ++ [t]) e → ((f t).run e).Spells I c R) :
    ((Parser.expect kind expected >>= f).run d).Spells I c R := by
  rw [Parser.run_bind, Parser.expect]
  by_cases hat : d.isAt kind = true
  · have hpeek : d.peek.kind = kind := beq_iff_eq.mp hat
    simp only [hat, if_true]
    exact hf d.peek d.advance hpeek (h.leads_peek hc hpeek hkind)
  · simp only [hat]
    exact h.spells_unexpected expected

theorem bind_eat? {f : Option Token → Parser β} {kind : TokenKind} (hc : c.Within n)
    (hkind : kind.isInner = true)
    (hsome : ∀ t e, t.kind = kind → I.Leads c (ts ++ [t]) e → ((f (some t)).run e).Spells I c R)
    (hnone : ((f none).run d).Spells I c R) : ((Parser.eat? kind >>= f).run d).Spells I c R := by
  rw [Parser.run_bind, Parser.eat?]
  by_cases hat : d.isAt kind = true
  · have hpeek : d.peek.kind = kind := beq_iff_eq.mp hat
    simp only [hat, if_true]
    exact hsome d.peek d.advance hpeek (h.leads_peek hc hpeek hkind)
  · simp only [hat]
    exact hnone

theorem bind_identifier {f : Ident → Parser β} (hc : c.Within n)
    (hf : ∀ t e, t.kind = .identifier → I.Leads c (ts ++ [t]) e →
      ((f t.ident).run e).Spells I c R) : ((Parser.identifier >>= f).run d).Spells I c R := by
  refine h.spells_bind (Q := fun us id => ∃ t, us = [t] ∧ t.kind = .identifier ∧ id = t.ident) ?_ ?_
  · have hd : d.Within n := h.within hc (Nat.le_add_right ..)
    refine (start d).bind_expect hd (by decide) fun t e ht he => ?_
    exact he.spells_pure ⟨t, rfl, ht, rfl⟩
  · rintro _ _ e ⟨t, rfl, ht, rfl⟩ he
    exact hf t e ht he

theorem bind_reject {f : Unit → Parser β} {hs : List Token} {ms : ModifierList}
    {rejected : ModifierSet} {target : ModifierTarget} (hms : OfModifiers hs ms) (hsub : hs ⊆ ts)
    (hf : ms.firstOf? rejected = none → ((f ()).run d).Spells I c R) :
    ((Parser.rejectModifiers ms rejected target >>= f).run d).Spells I c R := by
  rw [Parser.run_bind, Parser.rejectModifiers]
  cases hfirst : ms.firstOf? rejected with
  | none => exact hf hfirst
  | some w =>
    obtain ⟨t, ht, hspan⟩ := hms.exists_token (List.mem_of_find?_eq_some hfirst)
    exact h.spells_failed (List.mem_append_left _ (hsub ht)) hspan

end Trail.Leads

theorem Parser.Reads.many {item : Parser (Option α)} {S : Spelling (List α)}
    (hitem : item.Reads n (Round S)) : (Parser.many item).Reads n S := by
  intro c hc
  change (Parser.runMany item c).Spells .inner c S
  have hround := hitem c hc
  fun_induction Parser.runMany item c with
  | case1 c rest hrun =>
    rw [hrun] at hround
    obtain ⟨ts, hts, hstop | _⟩ := hround
    exact ⟨ts, hts, hstop⟩
  | case2 c a rest hrun _ as stop hmany ih =>
    rw [hrun] at hround
    obtain ⟨ts, hts, _ | ⟨hne, hnext⟩⟩ := hround
    have hrest : rest.Within n := hts.within hc (Nat.le_add_right ..)
    have hothers := ih hrest (hitem rest hrest)
    rw [hmany] at hothers
    obtain ⟨us, hus, hS⟩ := hothers
    exact ⟨ts ++ us, hts.extend hus, hnext us as hS⟩
  | case3 c a rest hrun _ e stop hmany ih =>
    rw [hrun] at hround
    obtain ⟨ts, hts, -⟩ := hround
    have hrest : rest.Within n := hts.within hc (Nat.le_add_right ..)
    have hothers := ih hrest (hitem rest hrest)
    rw [hmany] at hothers
    exact hts.spells (R := fun us as => ∃ vs, us = ts ++ vs ∧ S vs as) hothers
      fun us as has => ⟨us, rfl, has⟩
  | case4 c a rest hrun _ hmany ih =>
    rw [hrun] at hround
    obtain ⟨ts, hts, _ | ⟨hne, hnext⟩⟩ := hround
    have hrest : rest.Within n := hts.within hc (Nat.le_add_right ..)
    have hothers := ih hrest (hitem rest hrest)
    rw [hmany] at hothers
    exact hothers
  | case5 c a rest hrun hlength =>
    -- A round that found an item has passed a token.
    rw [hrun] at hround
    obtain ⟨ts, hts, _ | ⟨hne, hnext⟩⟩ := hround
    have hpos := List.length_pos_iff.mpr hne
    have hahead := congrArg List.length hts.ahead
    simp only [List.length_append] at hahead
    exact absurd (by omega) hlength
  | case6 c e rest hrun =>
    rw [hrun] at hround
    exact hround
  | case7 c hrun =>
    rw [hrun] at hround
    exact hround

/-- What is nested stands behind a token, so the number of tokens ahead goes down. -/
theorem Parser.Reads.fix {body : Parser α → Parser α}
    (hbody : ∀ n inner, inner.Reads n Q → (body inner).Reads (n + 1) Q) (n : Nat) :
    (Parser.fix body).Reads n Q := by
  suffices h : ∀ k c, c.Within k → ((Parser.runFix body c).1).Spells .inner c Q from
    fun c hc => h n c hc
  intro k
  induction k with
  | zero => exact fun c hc => absurd hc.length (Nat.not_lt_zero _)
  | succ k ih =>
    intro c hc
    rw [Parser.runFix]
    refine hbody c.ahead.length _ ?_ c ⟨hc.final, Nat.lt_succ_self _⟩
    intro d hd
    have hlength := hd.length
    have hk := hc.length
    simp only [hlength, dite_true]
    exact ih d ⟨hd.final, by omega⟩

end Rules

namespace Parser

/-! ### Shapes -/

section Shapes

variable {α : Type} {n : Nat} {item : Parser α} {R : Spelling α}

theorem Reads.behind? {kind : TokenKind} (hkind : kind.isInner = true) (hitem : item.Reads n R) :
    (behind? kind item).Reads (n + 1) (Behind kind R) := by
  intro c hc
  refine (Trail.start c).bind_eat? hc hkind (fun t e ht he => ?_) ?_
  · refine he.bindInner hc (by simp) hitem fun us a e' ha he' => ?_
    exact he'.spells_pure (.present (.intro ht ha))
  · exact (Trail.start c).spells_pure .absent

theorem Reads.commaList (hitem : item.Reads n R) : (commaList item).Reads n (Listed R) := by
  -- The items behind commas continue a list that has begun.
  have hothers : (Parser.many (Parser.behind? .comma item)).Reads n
      fun us as => ∀ ts a, R ts a → Listed R (ts ++ us) (a :: as) := by
    refine Reads.many (((hitem.behind? (by decide)).mono (Nat.le_succ n)).imp ?_)
    rintro _ _ (_ | ⟨⟨ht, ha⟩⟩)
    · refine .stop fun ts a ha => ?_
      rw [List.append_nil]
      exact .one ha
    · exact .next (by simp) fun vs as has ts b hb => .more hb ht (has _ _ ha)
  intro c hc
  refine (Trail.start c).bind hc hitem fun ts a e ha he => ?_
  refine he.bind hc hothers fun us as e' has he' => ?_
  exact he'.spells_pure (has ts a ha)

theorem Reads.enclosed (hitem : item.Reads n R) :
    (enclosed .leftParen .rightParen item).Reads (n + 1) (Enclosed R) := by
  intro c hc
  refine (Trail.start c).bind_expect hc (by decide) fun l c₁ hl h₁ => ?_
  refine h₁.bind_eat? hc (by decide) (fun r c₂ hr h₂ => ?_) ?_
  · exact h₂.spells_pure (.intro hl .absent hr)
  · refine h₁.bindInner hc (by simp) hitem.commaList fun ts as c₂ has h₂ => ?_
    refine h₂.bind_expect hc (by decide) fun r c₃ hr h₃ => ?_
    exact h₃.spells_pure (.intro hl (.present has) hr)

theorem Reads.bracketedOnLine (hitem : item.Reads n R) :
    (bracketedOnLine item).Reads (n + 1) (Bracketed R) := by
  intro c hc
  refine .look ?_
  split
  next hat =>
    have hl : c.peek.kind = .leftBracket := by simp_all [Cursor.isAtOnLine, Cursor.isAt]
    refine (Trail.start c).bind_next hc hl rfl fun c₁ h₁ => ?_
    refine h₁.bindInner hc (by simp) hitem.commaList fun ts as c₂ has h₂ => ?_
    refine h₂.bind_expect hc (by decide) fun r c₃ hr h₃ => ?_
    exact h₃.spells_pure (.present (.intro hl has hr))
  next => exact (Trail.start c).spells_pure .absent

theorem reads_skipSemicolons (n : Nat) :
    skipSemicolons.Reads n fun ts _ => ∀ t ∈ ts, t.kind = .semicolon := by
  intro c _
  obtain ⟨ts, hts, hall⟩ := c.passes_skipWhile fun t => t.kind == .semicolon
  have hkinds : ∀ t ∈ ts, t.kind = .semicolon := fun t ht => beq_iff_eq.mp (hall t ht)
  refine ⟨ts, ⟨hts, fun t ht => ?_⟩, hkinds⟩
  rw [hkinds t ht]
  rfl

theorem reads_statementEnd (closing : TokenKind) (n : Nat) :
    (statementEnd closing).Reads n fun ts _ => ts = [] := by
  intro c _
  simp only [statementEnd]
  split
  · exact ⟨[], Trail.start c, rfl⟩
  · exact (Trail.start c).spells_unexpected _

theorem Reads.statements (hitem : item.Reads n R) (hne : ∀ ts a, R ts a → ts ≠ []) :
    (statements item).Reads (n + 1) (Braced R) := by
  intro c hc
  refine (Trail.start c).bind_expect hc (by decide) fun l c₁ hl h₁ => ?_
  have hinside : c₁.Within n := h₁.within hc (Nat.le_refl _)
  refine h₁.spells (Reads.many (S := Closed R) ?_ c₁ hinside) fun us as has => .intro hl has
  intro c hc
  refine (Trail.start c).bind hc (reads_skipSemicolons n) fun ss _ c₁ hss h₁ => ?_
  refine h₁.bind_eat? hc (by decide) (fun r c₂ hr h₂ => ?_) ?_
  · exact h₂.spells_pure (.stop (.nil hss hr))
  · refine h₁.bind hc hitem fun ts a c₂ ha h₂ => ?_
    refine h₂.bind hc (reads_statementEnd .rightBrace n) ?_
    rintro _ _ c₃ rfl h₃
    refine h₃.spells_pure (.next ?_ fun us as has => ?_)
    · simp [hne ts a ha]
    · have h := Closed.cons hss ha has
      simpa using h

end Shapes

/-! ### Types -/

section Types

variable {n : Nat} {type : Parser TypeExpr} {R : Spelling TypeExpr}

theorem Reads.namedTypeWith (htype : type.Reads n R) :
    (namedTypeWith type).Reads (n + 1) (OfNamed R) := by
  intro c hc
  refine (Trail.start c).bind_identifier hc fun t c₁ ht h₁ => ?_
  refine h₁.bind hc htype.bracketedOnLine fun us as c₂ has h₂ => ?_
  refine .look (h₂.spells_pure ?_)
  rw [h₂.previousSpan (by simp)]
  exact .intro ht has

theorem Reads.parenthesizedType (htype : type.Reads n OfType) {c : Cursor} (hc : c.Within (n + 1)) :
    ((parenthesizedType type c.peek.span).run c).Spells .inner c OfType := by
  refine (Trail.start c).bind hc htype.enclosed fun ts as c₁ has h₁ => ?_
  refine h₁.bind hc (htype.behind? (by decide)) ?_
  rintro _ _ c₂ (_ | ⟨⟨ht, hr⟩⟩) h₂
  · have hpeek : c.peek.span = firstSpan ts := h₁.peek_span has.ne_nil
    rw [List.append_nil] at h₂
    dsimp only
    split
    next a => exact h₂.spells_pure (.group (fun _ _ h => h) has)
    next hsingle =>
      refine .look (h₂.spells_pure ?_)
      rw [hpeek, h₂.previousSpan has.ne_nil]
      refine .tuple (fun _ _ h => h) has fun hlength => ?_
      obtain ⟨a, ha⟩ := List.length_eq_one_iff.mp hlength
      exact hsingle a ha
  · refine h₂.spells_pure ?_
    rw [h₁.peek_span has.ne_nil]
    exact .function (fun _ _ h => h) has ht hr

theorem Reads.typeBody (htype : type.Reads n OfType) : (typeBody type).Reads (n + 1) OfType := by
  intro c hc
  refine .look (.look ?_)
  dsimp only
  split
  next => exact htype.parenthesizedType hc
  next =>
    refine (Trail.start c).bind hc htype.namedTypeWith fun ts a c₁ ha h₁ => ?_
    refine .look ?_
    split
    next hat =>
      have ht : c₁.peek.kind = .arrow := by simp_all [Cursor.isAtOnLine, Cursor.isAt]
      refine h₁.bind_next hc ht rfl fun c₂ h₂ => ?_
      refine h₂.bindInner hc (by simp) htype fun us r c₃ hr h₃ => ?_
      have hspan : c.peek.span = firstSpan ts := h₁.peek_span ha.ne_nil
      refine h₃.spells_pure ?_
      simpa [hspan] using .arrow (fun _ _ h => h) ha ht hr
    next => exact h₁.spells_pure (.named (fun _ _ h => h) ha)

theorem reads_typeExpr (n : Nat) : typeExpr.Reads n OfType :=
  .fix (fun _ _ => Reads.typeBody) n

theorem reads_namedType (n : Nat) : namedType.Reads n (OfNamed OfType) :=
  (reads_typeExpr n).namedTypeWith.mono (Nat.le_succ n)

theorem reads_typeAnnotation? (n : Nat) : typeAnnotation?.Reads n (Behind .colon OfType) :=
  ((reads_typeExpr n).behind? (by decide)).mono (Nat.le_succ n)

end Types

/-! ### Modifiers -/

theorem reads_modifiers (n : Nat) : modifiers.Reads n OfModifiers := by
  intro c hc
  refine (Trail.start c).bind hc (Reads.many (S := fun ts ws => OfModifiers ts ⟨ws⟩) ?_)
    fun ts ws e hws he => he.spells_pure hws
  intro c hc
  refine .look ?_
  cases hm : c.peek.kind.modifier? with
  | none => exact (Trail.start c).spells_pure (.stop rfl)
  | some m =>
    have hkind : c.peek.kind = .modifier m := by
      cases hkind : c.peek.kind <;> simp_all [TokenKind.modifier?]
    refine (Trail.start c).bind_next hc hkind rfl fun e he => ?_
    refine he.spells_pure (.next (by simp) fun us ws hws => ?_)
    simpa [OfModifiers, hkind] using hws

/-! ### Expressions -/

theorem reads_binder (n : Nat) : binder.Reads n OfBinder := by
  intro c hc
  refine .look ?_
  refine (Trail.start c).bind hc (reads_modifiers n) fun hs ms c₁ hms h₁ => ?_
  refine h₁.bind_reject hms (List.Subset.refl _) fun hnone => ?_
  obtain rfl : hs = [] := hms.eq_nil hnone
  refine h₁.bind_identifier hc fun t c₃ ht h₃ => ?_
  refine h₃.bind hc (reads_typeAnnotation? n) fun us type c₄ htype h₄ => ?_
  refine .look (h₄.spells_pure ?_)
  rw [h₄.peek_span (by simp), h₄.previousSpan (by simp)]
  exact .intro ht htype

theorem reads_binders (n : Nat) : binders.Reads n OfBinders := by
  intro c hc
  refine .look ?_
  split
  next =>
    have henclosed := (reads_binder n).enclosed.mono (Nat.le_succ n)
    exact (Trail.start c).spells (henclosed c hc) fun _ _ hbs => .several hbs
  next =>
    refine (Trail.start c).bind hc (reads_binder n) fun ts b e hb he => ?_
    exact he.spells_pure (.single hb)

theorem reads_memberName (n : Nat) : memberName.Reads n fun ts name =>
    ∃ t, ts = [t] ∧ (t.kind = .operator ∨ t.kind = .identifier) ∧ name = t.ident := by
  intro c hc
  refine .look ?_
  split
  next hat =>
    have ht : c.peek.kind = .operator := beq_iff_eq.mp hat
    refine (Trail.start c).bind_next hc ht rfl fun e he => ?_
    exact he.spells_pure ⟨c.peek, rfl, .inl ht, rfl⟩
  next =>
    refine (Trail.start c).bind_expect hc (by decide) fun t e ht he => ?_
    exact he.spells_pure ⟨t, rfl, .inr ht, rfl⟩

theorem reads_literal (n : Nat) : literal.Reads n OfExpr := by
  intro c hc
  refine .look ?_
  cases he : Literal.expr? c.peek with
  | none => exact (Trail.start c).spells_refused rfl
  | some e =>
    have hinner : c.peek.kind.isInner = true := by
      unfold Literal.expr? at he
      split at he <;> simp_all [TokenKind.isInner]
    refine (Trail.start c).bind_next hc rfl hinner fun d hd => ?_
    exact hd.spells_pure (.literal he)

theorem reads_unaryOperator? (n : Nat) : unaryOperator?.Reads n fun ts operator? =>
    (operator? = none ∧ ts = []) ∨ ∃ t, t.kind = .operator ∧ t.lexeme ∈ Operator.unaryOperators ∧
      operator? = some t.ident ∧ ts = [t] := by
  intro c hc
  refine .look ?_
  split
  next hat =>
    rw [Bool.and_eq_true, beq_iff_eq, List.contains_iff_mem] at hat
    refine (Trail.start c).bind_next hc hat.1 rfl fun d hd => ?_
    exact hd.spells_pure (.inr ⟨c.peek, hat.1, hat.2, rfl, rfl⟩)
  next => exact (Trail.start c).spells_pure (.inl ⟨rfl, rfl⟩)

section Nested

variable {n : Nat} {inner : Parser Expr} (hinner : inner.Reads n OfExpr)
include hinner

theorem Reads.closure : (closure inner).Reads (n + 1) OfExpr := by
  intro c hc
  refine .look ?_
  refine (Trail.start c).bind hc (reads_binders (n + 1)) fun ts bs c₁ hbs h₁ => ?_
  refine h₁.bind_expect hc (by decide) fun t c₂ ht h₂ => ?_
  refine h₂.bindInner hc (by simp) hinner fun us body c₃ hbody h₃ => ?_
  refine h₃.spells_pure ?_
  rw [h₁.peek_span hbs.ne_nil]
  simpa using .closure hbs ht hbody

theorem Reads.guarded {keyword : TokenKind} (hkeyword : keyword.isInner = true) :
    (guarded inner keyword).Reads (n + 1) fun ts r =>
      ∃ w l us p, ts = w :: l :: (us ++ [p]) ∧ w.kind = keyword ∧ l.kind = .leftParen ∧
        OfExpr us r.2 ∧ p.kind = .rightParen ∧ r.1 = w.span := by
  intro c hc
  refine (Trail.start c).bind_expect hc hkeyword fun w c₁ hw h₁ => ?_
  refine h₁.bind_expect hc (by decide) fun l c₂ hl h₂ => ?_
  refine h₂.bindInner hc (by simp) hinner fun us e c₃ he h₃ => ?_
  refine h₃.bind_expect hc (by decide) fun p c₄ hp h₄ => ?_
  exact h₄.spells_pure ⟨w, l, us, p, rfl, hw, hl, he, hp, rfl⟩

theorem Reads.conditional : (conditional inner).Reads (n + 1) OfExpr := by
  intro c hc
  refine (Trail.start c).bind hc (hinner.guarded (by decide)) ?_
  rintro _ ⟨_, condition⟩ c₁ ⟨w, l, ts, r, rfl, hw, hl, ha, hr, rfl⟩ h₁
  refine h₁.bindInner hc (by simp) hinner fun us consequent c₂ hb h₂ => ?_
  refine h₂.bind hc (hinner.behind? (by decide)) ?_
  rintro _ _ c₃ (_ | ⟨⟨ht, hd⟩⟩) h₃
  · refine .look (h₃.spells_pure ?_)
    rw [h₃.previousSpan (by simp)]
    simpa [extent] using .ifThen hw hl ha hr hb
  · refine .look (h₃.spells_pure ?_)
    rw [h₃.previousSpan (by simp)]
    simpa [extent] using .ifElse hw hl ha hr hb ht hd

theorem Reads.whileLoop : (whileLoop inner).Reads (n + 1) OfExpr := by
  intro c hc
  refine (Trail.start c).bind hc (hinner.guarded (by decide)) ?_
  rintro _ ⟨_, condition⟩ c₁ ⟨w, l, ts, r, rfl, hw, hl, ha, hr, rfl⟩ h₁
  refine h₁.bindInner hc (by simp) hinner fun us body c₂ hb h₂ => ?_
  refine h₂.spells_pure ?_
  simpa using .loop hw hl ha hr hb

omit hinner in
theorem Reads.argumentsOnLine {R : Spelling Expr} (hinner : inner.Reads n R) :
    (argumentsOnLine inner).Reads (n + 1) (Omissible (Enclosed R)) := by
  intro c hc
  refine .look ?_
  split
  next =>
    exact (Trail.start c).spells (hinner.enclosed c hc) fun _ _ has => .present has
  next => exact (Trail.start c).spells_pure .absent

theorem Reads.creation : (creation inner).Reads (n + 1) OfExpr := by
  intro c hc
  refine (Trail.start c).bind_expect hc (by decide) fun w c₁ hw h₁ => ?_
  refine h₁.bind hc (reads_namedType (n + 1)) fun ts type c₂ htype h₂ => ?_
  refine h₂.bind hc hinner.argumentsOnLine fun us as c₃ has h₃ => ?_
  refine .look (h₃.spells_pure ?_)
  rw [h₃.previousSpan (by simp)]
  simpa [extent] using .create (fun _ _ h => h) hw htype has

theorem Reads.statement : (statement inner).Reads n (OfStmt OfExpr) := by
  intro c hc
  refine .look ?_
  split
  next b hkind =>
    refine (Trail.start c).bind_next hc hkind rfl fun c₁ h₁ => ?_
    refine h₁.bind_identifier hc fun t c₂ ht h₂ => ?_
    refine h₂.bind hc (reads_typeAnnotation? n) fun us type c₃ htype h₃ => ?_
    refine h₃.bind_expect hc (by decide) fun q c₄ hq h₄ => ?_
    refine h₄.bind hc hinner fun vs e c₅ he h₅ => ?_
    refine h₅.spells_pure ?_
    simpa using .define hkind ht htype hq he
  next =>
    refine (Trail.start c).bind hc hinner fun ts e c₁ he h₁ => ?_
    exact h₁.spells_pure (.eval he)

theorem Reads.block : (block inner).Reads (n + 1) fun ts e =>
    ∃ ss, Braced (OfStmt OfExpr) ts ss ∧ e = .block ss (extent ts) := by
  intro c hc
  refine .look ?_
  have hstatements := hinner.statement.statements fun _ _ hs => hs.ne_nil
  refine (Trail.start c).bind hc hstatements fun ts ss c₁ hss h₁ => ?_
  refine .look (h₁.spells_pure ?_)
  rw [h₁.peek_span hss.ne_nil, h₁.previousSpan hss.ne_nil]
  exact ⟨ss, hss, rfl⟩

theorem Reads.parenthesized : (parenthesized inner).Reads (n + 1) OfExpr := by
  intro c hc
  refine (Trail.start c).bind_expect hc (by decide) fun l c₁ hl h₁ => ?_
  refine h₁.bind_eat? hc (by decide) (fun r c₂ hr h₂ => ?_) ?_
  · exact h₂.spells_pure (.unit hl hr)
  · refine h₁.bindInner hc (by simp) hinner fun ts e c₂ he h₂ => ?_
    refine h₂.bind_expect hc (by decide) fun r c₃ hr h₃ => ?_
    exact h₃.spells_pure (.group hl he hr)

omit hinner in
theorem spells_constant {c : Cursor} (hc : c.Within n) {f : Span → Expr}
    (h : c.peek.constant? = some (f c.peek.span)) :
    ((do return f (← next).span : Parser Expr).run c).Spells .inner c OfExpr := by
  have hinner : c.peek.kind.isInner = true := by
    unfold Token.constant? at h
    split at h <;> simp_all [TokenKind.isInner]
  refine (Trail.start c).bind_next hc rfl hinner fun d hd => ?_
  exact hd.spells_pure (.constant h)

theorem Reads.simple : (simple inner).Reads (n + 1) OfExpr := by
  intro c hc
  refine .look ?_
  split
  · exact reads_literal (n + 1) c hc
  · exact reads_literal (n + 1) c hc
  · exact reads_literal (n + 1) c hc
  · exact reads_literal (n + 1) c hc
  next hkind => exact spells_constant hc (by simp [Token.constant?, hkind])
  next hkind => exact spells_constant hc (by simp [Token.constant?, hkind])
  next hkind => exact spells_constant hc (by simp [Token.constant?, hkind])
  next hkind => exact spells_constant hc (by simp [Token.constant?, hkind])
  · refine (Trail.start c).bind_identifier hc fun t c₁ ht h₁ => ?_
    exact h₁.spells_pure (.reference ht)
  · exact hinner.creation c hc
  · refine (Trail.start c).spells (hinner.block c hc) ?_
    rintro ts _ ⟨ss, hss, rfl⟩
    exact .block (fun _ _ h => h) hss
  · exact hinner.parenthesized c hc
  · exact (Trail.start c).spells_unexpected _

def OfSuffixes : Spelling (List Suffix) := fun us suffixes =>
  ∀ ts e, OfExpr ts e → OfExpr (ts ++ us) (suffixes.foldl Suffix.attach e)

theorem Reads.suffix? : (suffix? inner).Reads (n + 1) (Round OfSuffixes) := by
  intro c hc
  refine (Trail.start c).bind_eat? hc (by decide) (fun d c₁ hd h₁ => ?_) (.look ?_)
  · refine h₁.bind hc (reads_memberName (n + 1)) ?_
    rintro _ _ c₂ ⟨t, rfl, ht, rfl⟩ h₂
    refine h₂.spells_pure (.next (by simp) fun us suffixes hsuffixes ts e he => ?_)
    simpa [Suffix.attach, Token.ident] using hsuffixes _ _ (.select he hd ht)
  · split
    next =>
      refine (Trail.start c).bind hc hinner.enclosed fun vs as c₁ has h₁ => ?_
      refine .look (h₁.spells_pure (.next (by simp [has.ne_nil]) ?_))
      intro us suffixes hsuffixes ts e he
      rw [h₁.previousSpan (by simp [has.ne_nil])]
      simpa [Suffix.attach] using hsuffixes _ _ (.call he (fun _ _ h => h) has)
    next =>
      refine (Trail.start c).spells_pure (.stop fun ts e he => ?_)
      simpa using he

theorem Reads.suffixed : (suffixed inner).Reads (n + 1) OfExpr := by
  intro c hc
  refine (Trail.start c).bind hc hinner.simple fun ts e c₁ he h₁ => ?_
  refine h₁.bind hc (.many hinner.suffix?) fun us suffixes c₂ hsuffixes h₂ => ?_
  exact h₂.spells_pure (hsuffixes ts e he)

theorem Reads.operand : (operand inner).Reads (n + 1) OfExpr := by
  -- Operators before an operand make an expression of the expression behind them.
  have hoperators : (Parser.many unaryOperator?).Reads (n + 1) fun us operators => ∀ ts e,
      OfExpr ts e → OfExpr (us ++ ts) (operators.foldr
        (fun operator e => .unary operator e (operator.span.through e.span)) e) := by
    refine Reads.many ((reads_unaryOperator? (n + 1)).imp ?_)
    rintro _ _ (⟨rfl, rfl⟩ | ⟨t, ht, hlexeme, rfl, rfl⟩)
    · exact .stop fun ts e he => he
    · exact .next (by simp) fun us operators hrest ts e he => .unary ht hlexeme (hrest ts e he)
  intro c hc
  refine (Trail.start c).bind hc hoperators fun us operators c₁ hus h₁ => ?_
  refine h₁.bind hc hinner.suffixed fun ts e c₂ he h₂ => ?_
  exact h₂.spells_pure (hus ts e he)

def OfOperations : Spelling (List (Ident × Expr)) := fun us rest =>
  ∀ ts state, OfState ts state →
    OfExpr (ts ++ us) (Operator.finish (rest.foldl Operator.push state))

theorem Reads.operation? : (operation? inner).Reads (n + 1) (Round OfOperations) := by
  intro c hc
  refine .look ?_
  split
  next hat =>
    have ht : c.peek.kind = .operator := by simp_all [Cursor.isAtOnLine, Cursor.isAt]
    refine (Trail.start c).bind_next hc ht rfl fun c₁ h₁ => ?_
    refine h₁.bind hc hinner.operand fun vs e c₂ he h₂ => ?_
    refine h₂.spells_pure (.next (by simp) fun us rest hrest ts state hstate => ?_)
    simpa [Token.ident] using hrest _ _ (hstate.push ht he)
  next =>
    refine (Trail.start c).spells_pure (.stop ?_)
    rintro _ state ⟨us, vs, rfl, hps, he⟩
    simpa using hps.finish he

theorem Reads.operations : (operations inner).Reads (n + 1) OfExpr := by
  intro c hc
  refine (Trail.start c).bind hc hinner.operand fun ts e c₁ he h₁ => ?_
  refine h₁.bind hc (.many hinner.operation?) fun us rest c₂ hrest h₂ => ?_
  exact h₂.spells_pure (hrest ts ([], e) (.start he))

theorem Reads.expressionBody : (expressionBody inner).Reads (n + 1) OfExpr := by
  intro c hc
  refine .look ?_
  split
  next => exact hinner.conditional c hc
  next =>
    refine .look ?_
    split
    next => exact hinner.whileLoop c hc
    next =>
      refine .look ?_
      split
      next => exact hinner.closure c hc
      next =>
        refine .look ?_
        refine (Trail.start c).bind hc hinner.operations fun ts e c₁ he h₁ => ?_
        refine .look ?_
        split
        next hat =>
          have ht : c₁.peek.kind = .equals := by simp_all [Cursor.isAtOnLine, Cursor.isAt]
          have hspan : c.peek.span = firstSpan ts := h₁.peek_span he.ne_nil
          refine h₁.bind_next hc ht rfl fun c₂ h₂ => ?_
          refine h₂.bindInner hc (by simp) hinner fun us value c₃ hvalue h₃ => ?_
          refine h₃.spells_pure ?_
          simpa [hspan] using .assign he ht hvalue
        next => exact h₁.spells_pure he

end Nested

theorem reads_expression (n : Nat) : expression.Reads n OfExpr :=
  .fix (fun _ _ => Reads.expressionBody) n

/-! ### Definitions -/

theorem reads_behind_equals (n : Nat) : (behind? .equals expression).Reads n
    (Behind .equals OfExpr) :=
  ((reads_expression n).behind? (by decide)).mono (Nat.le_succ n)

theorem reads_variance (n : Nat) : variance.Reads n OfVariance := by
  intro c hc
  refine .look ?_
  split
  next hat =>
    have ht : c.peek.kind = .operator := beq_iff_eq.mp hat
    split
    next hlexeme =>
      refine (Trail.start c).bind_next hc ht rfl fun c₁ h₁ => ?_
      exact h₁.spells_pure (.covariant ht hlexeme)
    next hlexeme =>
      refine (Trail.start c).bind_next hc ht rfl fun c₁ h₁ => ?_
      exact h₁.spells_pure (.contravariant ht hlexeme)
    next => exact (Trail.start c).spells_unexpected _
  next => exact (Trail.start c).spells_pure .invariant

theorem reads_typeParameter (n : Nat) : typeParameter.Reads n OfTypeParameter := by
  intro c hc
  refine .look ?_
  refine (Trail.start c).bind hc (reads_variance n) fun us v c₁ hv h₁ => ?_
  refine h₁.bind_identifier hc fun t c₂ ht h₂ => ?_
  have hbehind : (behind? .subtype typeExpr).Reads n (Behind .subtype OfType) :=
    ((reads_typeExpr n).behind? (by decide)).mono (Nat.le_succ n)
  refine h₂.bind hc hbehind fun vs bound c₃ hbound h₃ => ?_
  refine .look (h₃.spells_pure ?_)
  rw [h₃.peek_span (by simp), h₃.previousSpan (by simp)]
  simpa [extent] using .intro hv ht hbound

theorem reads_typeParameters (n : Nat) : typeParameters.Reads n (Bracketed OfTypeParameter) :=
  (reads_typeParameter n).bracketedOnLine.mono (Nat.le_succ n)

theorem spells_parameterTail {c d : Cursor} {n : Nat} {rejected : ModifierSet}
    {B : Spelling (Option Binding)} {hs bs : List Token} {ms : ModifierList} {b : Option Binding}
    (hc : c.Within n) (h : Trail.inner.Leads c (hs ++ bs) d) (hms : OfModifiers hs ms)
    (hadmitted : ms.firstOf? rejected = none) (hb : B bs b) :
    ((parameterTail c.peek.span ms b).run d).Spells .inner c (OfParameter rejected B) := by
  refine h.bind_identifier hc fun t c₁ ht h₁ => ?_
  refine h₁.bind_expect hc (by decide) fun k c₂ hk h₂ => ?_
  refine h₂.bind hc (reads_typeExpr n) fun us type c₃ htype h₃ => ?_
  refine h₃.bind hc (reads_behind_equals n) fun vs default c₄ hdefault h₄ => ?_
  refine .look (h₄.spells_pure ?_)
  rw [h₄.peek_span (by simp), h₄.previousSpan (by simp)]
  simpa [extent] using .intro hms hadmitted hb ht hk htype hdefault

theorem reads_classParameter (isCase : Bool) (n : Nat) :
    (classParameter isCase).Reads n (OfClassParameter isCase) := by
  intro c hc
  refine .look ?_
  refine (Trail.start c).bind hc (reads_modifiers n) fun hs ms c₁ hms h₁ => ?_
  refine h₁.bind_reject hms (List.Subset.refl _) fun hadmitted => .look ?_
  split
  next b hkind =>
    refine h₁.bind_next hc hkind rfl fun c₂ h₂ => ?_
    exact spells_parameterTail hc h₂ hms hadmitted (.written hkind)
  next => exact spells_parameterTail hc (by simpa using h₁) hms hadmitted .absent

theorem reads_methodParameter (n : Nat) : methodParameter.Reads n OfMethodParameter := by
  intro c hc
  refine .look ?_
  refine (Trail.start c).bind hc (reads_modifiers n) fun hs ms c₁ hms h₁ => ?_
  refine h₁.bind_reject hms (List.Subset.refl _) fun hadmitted => ?_
  exact spells_parameterTail hc (by simpa using h₁) hms hadmitted .intro

theorem reads_classParameters (kind : TypeKind) (isCase : Bool) (n : Nat) :
    (classParameters kind isCase).Reads n (OfClassParameters isCase kind) := by
  intro c hc
  refine .look ?_
  split
  next =>
    cases kind with
    | «class» =>
      have henclosed := (reads_classParameter isCase n).enclosed.mono (Nat.le_succ n)
      exact (Trail.start c).spells (henclosed c hc) fun _ _ hps => .present hps
    | trait => exact .look ((Trail.start c).spells_refused rfl)
    | object => exact .look ((Trail.start c).spells_refused rfl)
  next => exact (Trail.start c).spells_pure .absent

theorem reads_clauses (n : Nat) :
    (many methodClause?).Reads n (Chained (Enclosed OfMethodParameter)) := by
  refine Reads.many fun c hc => ?_
  refine .look ?_
  split
  next =>
    have henclosed := (reads_methodParameter n).enclosed.mono (Nat.le_succ n)
    refine (Trail.start c).bind hc henclosed fun ts ps c₁ hps h₁ => ?_
    exact h₁.spells_pure (.next (by simp [hps.ne_nil]) fun us cs hcs => .cons hps hcs)
  next => exact (Trail.start c).spells_pure (.stop .nil)

theorem reads_parent (n : Nat) : parent.Reads n OfParent := by
  intro c hc
  refine (Trail.start c).bind hc (reads_namedType n) fun us type c₁ htype h₁ => ?_
  have harguments := (reads_expression n).argumentsOnLine.mono (Nat.le_succ n)
  refine h₁.bind hc harguments fun vs as c₂ has h₂ => ?_
  refine .look (h₂.spells_pure ?_)
  rw [h₂.previousSpan (by simp [htype.ne_nil])]
  exact .intro htype has

theorem reads_parents (n : Nat) : parents.Reads n OfParents := by
  have hparent : ∀ kind : TokenKind, kind.isInner = true →
      (Parser.behind? kind parent).Reads n (Behind kind OfParent) :=
    fun kind hkind => ((reads_parent n).behind? hkind).mono (Nat.le_succ n)
  have hothers : (many (Parser.behind? .kwWith parent)).Reads n
      (Chained (Headed .kwWith OfParent)) := by
    refine Reads.many ((hparent .kwWith (by decide)).imp ?_)
    rintro ts _ (_ | hp)
    · exact .stop .nil
    · exact .next hp.ne_nil fun us ps hps => .cons hp hps
  intro c hc
  refine (Trail.start c).bind hc (hparent .kwExtends (by decide)) ?_
  rintro ts _ c₁ (_ | hp) h₁
  · exact h₁.spells_pure .none
  · refine h₁.bind hc hothers fun us ps c₂ hps h₂ => ?_
    exact h₂.spells_pure (.some hp hps)

theorem spells_initializer {c d : Cursor} {n : Nat} {ts : List Token} (hc : c.Within n)
    (h : Trail.inner.Leads c ts d) (hts : ts ≠ []) :
    (initializer.run d).Spells .inner d (OfInitializer (afterLast ts)) := by
  have hd : d.Within n := h.within hc (Nat.le_add_right ..)
  refine (Trail.start d).bind hd (reads_behind_equals n) ?_
  rintro us _ e (_ | he) h₁
  · have hpass := h.extend h₁
    refine .look (h₁.spells_pure ?_)
    rw [hpass.afterPrevious (by simp [hts])]
    simpa using .omitted
  · exact h₁.spells_pure (.given he)

theorem bind_checkField {α : Type} {f : Unit → Parser α} {R : Spelling α} {c d : Cursor}
    {hs ts : List Token} {ms : ModifierList} {b : Binding} (h : Trail.inner.Leads c ts d)
    (hms : OfModifiers hs ms) (hsub : hs ⊆ ts)
    (hf : (b = .var → ms.firstOf? (.ofList [.lazy]) = none) →
      ((f ()).run d).Spells .inner c R) :
    ((checkFieldModifiers b ms >>= f).run d).Spells .inner c R := by
  cases b with
  | val => exact hf (by simp)
  | var => exact h.bind_reject hms hsub fun hnone => hf fun _ => hnone

theorem reads_methodBody (n : Nat) : methodBody.Reads n OfBody := by
  intro c hc
  refine (Trail.start c).bind hc (reads_behind_equals n) ?_
  rintro ts _ c₁ (_ | he) h₁
  · refine .look ?_
    split
    next =>
      have hblock := (reads_expression n).block.mono (Nat.le_succ n)
      refine h₁.bind hc hblock ?_
      rintro us _ c₂ ⟨ss, hss, rfl⟩ h₂
      exact h₂.spells_pure (.block hss)
    next => exact h₁.spells_pure .absent
  · exact h₁.spells_pure (.value he)

theorem spells_field {c d : Cursor} {n : Nat} {hs : List Token} {ms : ModifierList} {b : Binding}
    (hc : c.Within n) (h : Trail.inner.Leads c hs d) (hms : OfModifiers hs ms)
    (hadmitted : ms.firstOf? memberRejects = none) (hw : d.peek.kind = .binding b) :
    ((field c.peek.span ms b).run d).Spells .inner c OfField := by
  refine h.bind_next hc hw rfl fun c₁ h₁ => ?_
  refine bind_checkField h₁ hms (List.subset_append_left ..) fun hlazy => ?_
  refine h₁.bind_identifier hc fun t c₃ ht h₃ => ?_
  refine h₃.bind hc (reads_typeAnnotation? n) fun us type c₄ htype h₄ => ?_
  refine h₄.spells_bind (spells_initializer hc h₄ (by simp)) fun vs init c₅ hinit h₅ => ?_
  refine .look (h₅.spells_pure ?_)
  rw [h₅.peek_span (by simp), h₅.previousSpan (by simp)]
  simp only [List.append_assoc, List.singleton_append] at hinit
  simpa [extent] using .intro hms hadmitted hlazy hw ht htype hinit

theorem spells_method {c d : Cursor} {n : Nat} {hs : List Token} {ms : ModifierList}
    (hc : c.Within n) (h : Trail.inner.Leads c hs d) (hms : OfModifiers hs ms)
    (hadmitted : ms.firstOf? memberRejects = none)
    (hlazy : ms.firstOf? (.ofList [.lazy]) = none) :
    ((method c.peek.span ms).run d).Spells .inner c OfMethod := by
  refine h.bind_expect hc (by decide) fun w c₁ hw h₁ => ?_
  refine h₁.bind hc (reads_memberName n) ?_
  rintro _ _ c₂ ⟨t, rfl, ht, rfl⟩ h₂
  refine h₂.bind hc (reads_typeParameters n) fun ts tps c₃ htps h₃ => ?_
  refine h₃.bind hc (reads_clauses n) fun us cs c₄ hcs h₄ => ?_
  refine h₄.bind hc (reads_typeAnnotation? n) fun vs result c₅ hresult h₅ => ?_
  refine .look ?_
  rw [h₅.peek_span (by simp), h₅.previousSpan (by simp)]
  refine h₅.bind hc (reads_methodBody n) fun bs body c₆ hbody h₆ => ?_
  refine h₆.spells_pure ?_
  simpa [extent] using .intro hms hadmitted hlazy hw ht htps hcs hresult hbody

theorem reads_member (n : Nat) : member.Reads n OfMember := by
  intro c hc
  refine .look ?_
  refine (Trail.start c).bind hc (reads_modifiers n) fun hs ms c₁ hms h₁ => ?_
  refine h₁.bind_reject hms (List.Subset.refl _) fun hadmitted => .look ?_
  split
  next b hkind =>
    refine (spells_field hc h₁ hms hadmitted hkind).bind fun ts f c₂ hf h₂ => ?_
    exact h₂.spells_pure (.field hf)
  next =>
    refine h₁.bind_reject hms (List.Subset.refl _) fun hlazy => ?_
    refine (spells_method hc h₁ hms hadmitted hlazy).bind fun ts m c₂ hm h₂ => ?_
    exact h₂.spells_pure (.method hm)
  next => exact h₁.spells_unexpected _

theorem reads_members (n : Nat) : members.Reads n (Omissible (Braced OfMember)) := by
  intro c hc
  refine .look ?_
  split
  next =>
    have hstatements := ((reads_member n).statements fun _ _ hm => hm.ne_nil).mono (Nat.le_succ n)
    exact (Trail.start c).spells (hstatements c hc) fun _ _ hms => .present hms
  next => exact (Trail.start c).spells_pure .absent

/-! ### Heads -/

section Heads

variable {α : Type} {R : Spelling α} {c d : Cursor} {hs ts : List Token} {ms : ModifierList}

theorem run_bind_assoc {β γ : Type} (p : Parser α) (f : α → Parser β) (g : β → Parser γ)
    (c : Cursor) : ((p >>= f) >>= g).run c = (p >>= fun a => f a >>= g).run c := by
  rw [run_bind, run_bind, run_bind]
  cases p.run c with
  | done a rest => exact (run_bind (f a) g rest).symm
  | _ => rfl

theorem bind_checkType {f : Unit → Parser α} {kind : TypeKind} (h : Trail.oneHead.Leads c ts d)
    (hms : OfModifiers hs ms) (hsub : hs ⊆ ts)
    (hf : Admits kind ms → ((f ()).run d).Spells .oneHead c R) :
    ((checkTypeModifiers kind ms >>= f).run d).Spells .oneHead c R := by
  unfold checkTypeModifiers
  rw [run_bind_assoc]
  refine h.bind_reject hms hsub fun hadmitted => ?_
  cases kind with
  | «class» => exact hf ⟨hadmitted, by simp, by simp⟩
  | trait => exact h.bind_reject hms hsub fun hcase => hf ⟨hadmitted, fun _ => hcase, by simp⟩
  | object => exact h.bind_reject hms hsub fun hopen => hf ⟨hadmitted, by simp, fun _ => hopen⟩

theorem run_typeKind (c : Cursor) :
    (∃ k, c.peek.kind = .typeKind k ∧ typeKind.run c = .done k c.advance) ∨
      ∃ e, e.span = c.peek.span ∧ typeKind.run c = .failed e c := by
  rw [typeKind, run_bind]
  simp only [look]
  cases hk : c.peek.kind with
  | typeKind k => exact .inl ⟨k, rfl, rfl⟩
  | _ => exact .inr ⟨_, c.span_unexpected _, rfl⟩

theorem bind_typeKind {f : TypeKind → Parser α} {n : Nat} (h : Trail.oneHead.Leads c hs d)
    (hc : c.Within n) (hms : OfModifiers hs ms)
    (hf : ∀ w kind e, w.kind = .typeKind kind → Trail.oneHead.Leads c (hs ++ [w]) e →
      ((f kind).run e).Spells .oneHead c R) : ((typeKind >>= f).run d).Spells .oneHead c R := by
  rw [run_bind]
  rcases run_typeKind d with ⟨kind, hkind, hrun⟩ | ⟨e, he, hrun⟩
  · rw [hrun]
    have hfinal := (h.within hc (Nat.le_add_right ..)).final
    have hpass := h.toPasses.trans (Cursor.passes_of_peek hfinal (by simp [hkind]))
    exact hf d.peek kind d.advance hkind ⟨hpass, Token.oneHead_concat hms.isSome_modifier? _⟩
  · rw [hrun]
    exact h.spells_refused he

end Heads

theorem spells_typeDef {c : Cursor} {n : Nat} (hc : c.Within n) :
    (typeDef.run c).Spells .oneHead c OfTypeDef := by
  refine .look ?_
  refine (Trail.start c).bind hc (reads_modifiers n) fun hs ms c₁ hms h₁ => ?_
  refine bind_typeKind h₁ hc hms fun w kind c₂ hw h₂ => ?_
  refine bind_checkType h₂ hms (List.subset_append_left ..) fun hadmitted => ?_
  refine h₂.bind_identifier hc fun t c₄ ht h₄ => ?_
  refine h₄.bind hc (reads_typeParameters n) fun ts tps c₅ htps h₅ => ?_
  refine h₅.bind hc (reads_classParameters kind (ms.contains .case) n) fun us ps c₆ hps h₆ => ?_
  refine h₆.bind hc (reads_parents n) fun vs parents c₇ hparents h₇ => ?_
  refine h₇.bind hc (reads_members n) fun bs members c₈ hmembers h₈ => ?_
  refine h₈.bind hc (reads_statementEnd .eof n) ?_
  rintro _ _ c₉ rfl h₉
  refine h₉.spells_pure ?_
  rw [h₂.peek_span (by simp)]
  simpa using .intro hms hw hadmitted ht htps hps hparents hmembers

end Parser

/-! ### Programs -/

theorem Cursor.precedes_recover (c : Cursor) : c.advance.Precedes c.recover := by
  suffices h : ∀ previous ahead,
      Precedes ⟨previous, ahead, c.final⟩ (recover.go c previous ahead) by
    have hfinal : c.advance.final = c.final := by
      obtain ⟨ts, hts⟩ := c.precedes_advance
      exact hts.final
    have hgo := h c.advance.previous c.advance.ahead
    rw [← hfinal] at hgo
    exact hgo
  intro previous ahead
  induction ahead generalizing previous with
  | nil => exact .refl _
  | cons t rest ih =>
    rw [recover.go]
    split
    · exact .refl _
    · have hpass : Precedes ⟨previous, t :: rest, c.final⟩ ⟨some t, rest, c.final⟩ :=
        ⟨[t], rfl, rfl, rfl⟩
      exact hpass.trans (ih (some t))

theorem Cursor.Precedes.length_le {c d : Cursor} (h : c.Precedes d) :
    d.ahead.length ≤ c.ahead.length := by
  obtain ⟨ts, hts⟩ := h
  have hlength := congrArg List.length hts.ahead
  simp only [List.length_append] at hlength
  omega

theorem Cursor.length_recover (c : Cursor) : c.recover.ahead.length ≤ c.ahead.length - 1 := by
  have hle := c.precedes_recover.length_le
  have hadvance : c.advance.ahead.length = c.ahead.length - 1 := by
    obtain ⟨previous, ahead, final⟩ := c
    cases ahead <;> simp [advance]
  omega

namespace Program

def startFrom (c : Cursor) : Cursor := c.skipWhile fun t => t.kind == .semicolon

/-- What reading definitions from `c` on comes to, with nothing that keeps it from going on for
ever. -/
inductive ReadsTo : Cursor → Reading → Prop
  | finish {c} (hend : (startFrom c).isAt .eof = true) : ReadsTo c ⟨[], []⟩
  | definition {c d rest r} (hmore : (startFrom c).isAt .eof = false)
    (hrun : Parser.typeDef.run (startFrom c) = .done d rest) (hrest : ReadsTo rest r) :
    ReadsTo c ⟨d :: r.definitions, r.errors⟩
  | error {c e rest r} (hmore : (startFrom c).isAt .eof = false)
    (hrun : Parser.typeDef.run (startFrom c) = .failed e rest) (hrest : ReadsTo rest.recover r) :
    ReadsTo c ⟨r.definitions, e :: r.errors⟩

theorem round {c : Cursor} (hfinal : c.final.kind = .eof)
    (hmore : (startFrom c).isAt .eof = false) :
    (∃ d rest ts, Parser.typeDef.run (startFrom c) = .done d rest ∧ (startFrom c).Passes ts rest ∧
      OfTypeDef ts d ∧ rest.final.kind = .eof ∧ rest.ahead.length < c.ahead.length) ∨
    ∃ e rest, Parser.typeDef.run (startFrom c) = .failed e rest ∧
      rest.recover.final.kind = .eof ∧ rest.recover.ahead.length < c.ahead.length := by
  have hskip : c.Precedes (startFrom c) := c.precedes_skipWhile _
  have hle := hskip.length_le
  have hstart : (startFrom c).final.kind = .eof := by
    obtain ⟨ts, hts⟩ := hskip
    rw [hts.final]
    exact hfinal
  have hspells := Parser.spells_typeDef ⟨hstart, Nat.lt_succ_self _⟩
  have hforward := Parser.typeDef.forward (startFrom c)
  cases hrun : Parser.typeDef.run (startFrom c) with
  | done d rest =>
    rw [hrun] at hspells
    obtain ⟨ts, hts, hd⟩ := hspells
    have hpos := List.length_pos_iff.mpr hd.ne_nil
    have hlength := congrArg List.length hts.ahead
    simp only [List.length_append] at hlength
    refine .inl ⟨d, rest, ts, rfl, hts.toPasses, hd, ?_, by omega⟩
    rw [hts.final]
    exact hstart
  | failed e rest =>
    rw [hrun] at hforward
    have hrest : (startFrom c).Precedes rest := hforward rest rfl
    have hrecover := rest.length_recover
    have hpos : 0 < (startFrom c).ahead.length := by
      have hpeek : (startFrom c).peek.kind ≠ .eof := by simpa [Cursor.isAt] using hmore
      have hlength := congrArg List.length (Cursor.passes_of_peek hstart hpeek).ahead
      simp only [List.length_append, List.length_singleton] at hlength
      omega
    have hlength := hrest.length_le
    obtain ⟨ts, hts⟩ := hrest.trans (rest.precedes_advance.trans rest.precedes_recover)
    refine .inr ⟨e, rest, rfl, ?_, by omega⟩
    rw [hts.final]
    exact hstart
  | stuck =>
    rw [hrun] at hspells
    exact hspells.elim

/-- Every round of reading passes a token, so reading ends with the end of the text. -/
theorem readsTo_readFrom {c : Cursor} (hfinal : c.final.kind = .eof) : ReadsTo c (readFrom c) := by
  induction hn : c.ahead.length using Nat.strongRecOn generalizing c with
  | ind n ih =>
    subst hn
    rw [readFrom]
    change ReadsTo c (if (startFrom c).isAt .eof = true then _ else _)
    split
    next hend => exact .finish hend
    next hmore =>
      rw [Bool.not_eq_true] at hmore
      rcases round hfinal hmore with ⟨d, rest, ts, hrun, -, -, hrest, hlength⟩ |
        ⟨e, rest, hrun, hrest, hlength⟩
      · have hothers := ih rest.ahead.length hlength hrest rfl
        have hrun' := hrun
        unfold startFrom at hrun'
        simp only [hrun', hlength, if_true]
        exact .definition hmore hrun hothers
      · have hothers := ih rest.recover.ahead.length hlength hrest rfl
        have hrun' := hrun
        unfold startFrom at hrun'
        simp only [hrun', hlength, if_true]
        exact .error hmore hrun hothers

theorem ReadsTo.spells {c : Cursor} {r : Reading} (h : ReadsTo c r) (hfinal : c.final.kind = .eof)
    (hnone : r.errors = []) :
    ∃ ts d, c.Passes ts d ∧ d.isAt .eof = true ∧ OfDefinitions ts r.definitions := by
  induction h with
  | @finish c hend =>
    obtain ⟨ss, hss, hall⟩ := c.passes_skipWhile fun t => t.kind == .semicolon
    exact ⟨ss, _, hss, hend, .nil fun s hs => beq_iff_eq.mp (hall s hs)⟩
  | @definition c d rest r hmore hrun hrest ih =>
    obtain ⟨ss, hss, hall⟩ := c.passes_skipWhile fun t => t.kind == .semicolon
    obtain ⟨d', rest', ts, hrun', hts, hd, hfinal', -⟩ | ⟨e, rest', hrun', -⟩ := round hfinal hmore
    · obtain ⟨rfl, rfl⟩ := Outcome.done.inj (hrun.symm.trans hrun')
      obtain ⟨us, e, hus, he, hds⟩ := ih hfinal' hnone
      refine ⟨ss ++ (ts ++ us), e, hss.trans (hts.trans hus), he, .cons ?_ hd hds⟩
      exact fun s hs => beq_iff_eq.mp (hall s hs)
    · cases hrun.symm.trans hrun'
  | error => cases hnone

/-- A program is spelled by the tokens before the end of the text. -/
theorem spells_ofTokens {stream : TokenStream} {p : Program} (hfinal : stream.final.kind = .eof)
    (h : ofTokens stream = .ok p) :
    ∃ ts d, (Cursor.ofStream stream).Passes ts d ∧ d.isAt .eof = true ∧
      OfDefinitions ts p.definitions := by
  rw [ofTokens] at h
  split at h
  next hnone =>
    obtain rfl := Except.ok.inj h
    exact (readsTo_readFrom hfinal).spells hfinal (List.isEmpty_iff.mp hnone)
  next => cases h

end Program

end Mixin
