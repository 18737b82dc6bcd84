import Mixin.Proofs.Grammar.Agreement
import Mixin.Proofs.Grammar.Rendering

/-!
# Reading inverts rendering

A syntax tree that reading has yielded is what its rendering is read as, but for places
(`Program.ofTokens_rendered`). Parsers are run on rendered tokens: each passes exactly the tokens of
its part, provided that the token behind them is none with which the part could go on.
-/

namespace Mixin

open Rendering Spelling

/-! ### Places in rendered tokens -/

/-- The token at the beginning of a line, or inside one. -/
def Token.lined (first : Bool) (t : Token) : Token := { t with startsLine := first }

namespace Cursor

variable {c d : Cursor} {t : Token} {ts us : List Token} {n : Nat}

theorem Passes.head (h : c.Passes (t :: ts) d) : c.peek = t := by simp [peek, h.ahead]

theorem Passes.tail (h : c.Passes (t :: ts) d) : c.advance.Passes ts d := by
  obtain ⟨previous, ahead, final⟩ := c
  obtain ⟨hahead, hprevious, hfinal⟩ := h
  simp only [List.cons_append] at hahead
  subst hahead
  refine ⟨rfl, ?_, hfinal⟩
  rw [hprevious]
  cases ts with
  | nil => rfl
  | cons u ts =>
    rw [List.getLast?_cons_cons, List.getLast?_eq_some_getLast (List.cons_ne_nil u ts)]
    rfl

theorem Passes.split (h : c.Passes (ts ++ us) d) : ∃ m, c.Passes ts m ∧ m.Passes us d := by
  refine ⟨⟨ts.getLast?.or c.previous, us ++ d.ahead, c.final⟩, ⟨?_, rfl, rfl⟩, ⟨rfl, ?_, ?_⟩⟩
  · rw [h.ahead, List.append_assoc]
  · rw [h.previous, List.getLast?_append, Option.or_assoc]
  · exact h.final

theorem Passes.skipWhile {p : Token → Bool} (h : c.Passes ts d) (hts : ∀ t ∈ ts, p t = true)
    (hahead : d.ahead = t :: us) (ht : p t = false) : c.skipWhile p = d := by
  have hgo : ∀ previous, skipWhile.go p c previous (ts ++ t :: us) =
      ⟨ts.getLast?.or previous, t :: us, c.final⟩ := by
    clear h
    induction ts with
    | nil =>
      intro previous
      simp [skipWhile.go, ht]
    | cons u ts ih =>
      intro previous
      have hu := hts u (List.mem_cons_self ..)
      rw [List.cons_append, skipWhile.go, if_pos hu]
      rw [ih (fun v hv => hts v (List.mem_cons_of_mem _ hv)) (some u)]
      cases ts with
      | nil => rfl
      | cons v ts =>
        rw [List.getLast?_cons_cons, List.getLast?_eq_some_getLast (List.cons_ne_nil v ts)]
        rfl
  obtain ⟨previous', ahead', final'⟩ := d
  obtain ⟨hc, hprevious, hfinal⟩ := h
  simp only at hc hprevious hfinal hahead
  rw [Cursor.skipWhile, hc, hahead, hgo, hprevious, hfinal]

/-- Nothing ahead has a place, and fewer than `n` tokens stand ahead. -/
structure Blank (c : Cursor) (n : Nat) : Prop where
  previous : ∀ t ∈ c.previous, t.span = .topOfFile
  ahead : ∀ t ∈ c.ahead, t.span = .topOfFile
  final : c.final.span = .topOfFile
  length : c.ahead.length < n

theorem Passes.blankWithin {m : Nat} (h : c.Passes ts d) (hc : c.Blank n)
    (hm : n ≤ m + ts.length) : d.Blank m where
  previous := by
    intro t ht
    rw [h.previous] at ht
    cases hlast : ts.getLast? with
    | none =>
      rw [hlast, Option.none_or] at ht
      exact hc.previous t ht
    | some u =>
      rw [hlast, Option.some_or] at ht
      obtain rfl := Option.some.inj ht
      refine hc.ahead u ?_
      rw [h.ahead]
      exact List.mem_append_left _ (List.mem_of_getLast? hlast)
  ahead := by
    intro t ht
    refine hc.ahead t ?_
    rw [h.ahead]
    exact List.mem_append_right _ ht
  final := by
    rw [h.final]
    exact hc.final
  length := by
    have hlength := congrArg List.length h.ahead
    have hn := hc.length
    simp only [List.length_append] at hlength
    omega

theorem Passes.blank (h : c.Passes ts d) (hc : c.Blank n) : d.Blank n :=
  h.blankWithin hc (Nat.le_add_right ..)

theorem Passes.blankInner (h : c.Passes ts d) (hts : ts ≠ []) (hc : c.Blank (n + 1)) :
    d.Blank n := by
  have hpos := List.length_pos_iff.mpr hts
  exact h.blankWithin hc (by omega)

theorem Blank.mono {m : Nat} (hc : c.Blank n) (hm : n ≤ m) : c.Blank m :=
  ⟨hc.previous, hc.ahead, hc.final, Nat.lt_of_lt_of_le hc.length hm⟩

theorem Passes.first (h : c.Passes (t :: ts) d) : c.Passes [t] c.advance := passes_advance h.ahead

theorem Blank.advance (hc : c.Blank (n + 1)) (h : c.Passes (t :: ts) d) : c.advance.Blank n :=
  h.first.blankInner (by simp) hc

theorem Blank.peek (hc : c.Blank n) : c.peek.span = .topOfFile := by
  cases hahead : c.ahead with
  | nil => simpa [Cursor.peek, hahead] using hc.final
  | cons t rest =>
    have ht := hc.ahead t (by simp [hahead])
    simpa [Cursor.peek, hahead] using ht

theorem Blank.previousSpan (hc : c.Blank n) : c.previousSpan = .topOfFile := by
  rw [Cursor.previousSpan]
  cases hprevious : c.previous with
  | none => exact hc.peek
  | some t => exact hc.previous t hprevious

theorem Passes.isAt (h : c.Passes (t :: ts) d) (kind : TokenKind) :
    c.isAt kind = (t.kind == kind) := by
  rw [Cursor.isAt, h.head]

theorem Passes.isAtOnLine (h : c.Passes (t :: ts) d) (hline : t.startsLine = false)
    (kind : TokenKind) : c.isAtOnLine kind = (t.kind == kind) := by
  rw [Cursor.isAtOnLine, h.isAt, h.head, hline]
  simp

theorem isAt_eq_false {kind : TokenKind} (h : c.peek.kind ≠ kind) : c.isAt kind = false := by
  simpa [isAt] using h

theorem isAtOnLine_eq_false {kind : TokenKind} (h : c.peek.kind ≠ kind) :
    c.isAtOnLine kind = false := by
  simp [isAtOnLine, isAt_eq_false h]

end Cursor

namespace Parser

section Runs

variable {α β : Type} {c d e m : Cursor} {a : α} {b : β} {p : Parser α} {f : α → Parser β}
  {A B : Parser β} {t : Token} {ts us : List Token} {kind : TokenKind}

theorem run_bind_of_done (hp : p.run c = .done a m) (hf : (f a).run m = .done b d) :
    (p >>= f).run c = .done b d := by
  rw [run_bind, hp]
  exact hf

theorem run_look (u : Cursor → α) : (look u >>= f).run c = (f (u c)).run c := rfl

theorem run_if_true {u : Cursor → Bool} (h : u c = true) :
    (look u >>= fun x => if x = true then A else B).run c = A.run c := by
  rw [run_look, h]
  rfl

theorem run_if_false {u : Cursor → Bool} (h : u c = false) :
    (look u >>= fun x => if x = true then A else B).run c = B.run c := by
  rw [run_look, h]
  rfl

theorem run_next (h : c.Passes (t :: ts) d) : next.run c = .done t c.advance := by
  change Outcome.done c.peek c.advance = _
  rw [h.head]

theorem run_expect (h : c.Passes (t :: ts) d) (ht : t.kind = kind) (expected : Expected) :
    (expect kind expected).run c = .done t c.advance := by
  simp [expect, h.isAt, h.head, ht]

theorem run_eat? (h : c.Passes (t :: ts) d) (ht : t.kind = kind) :
    (eat? kind).run c = .done (some t) c.advance := by
  simp [eat?, h.isAt, h.head, ht]

theorem run_eat?_none (h : c.peek.kind ≠ kind) : (eat? kind).run c = .done none c := by
  simp [eat?, Cursor.isAt_eq_false h]

theorem run_many_nil {item : Parser (Option α)} (h : item.run c = .done none d) :
    (many item).run c = .done [] d := by
  change runMany item c = _
  rw [runMany, h]

theorem run_many_cons {item : Parser (Option α)} {as : List α} (hne : ts ≠ [])
    (hpass : c.Passes ts m) (h : item.run c = .done (some a) m)
    (hrest : (many item).run m = .done as d) : (many item).run c = .done (a :: as) d := by
  have hpos := List.length_pos_iff.mpr hne
  have hlength := congrArg List.length hpass.ahead
  simp only [List.length_append] at hlength
  have hlt : m.ahead.length < c.ahead.length := by omega
  have hmany : runMany item m = .done as d := hrest
  change runMany item c = _
  rw [runMany, h]
  simp only [hlt, if_true, hmany]

/-- What `body` reads in the place of itself is what it reads at a place with fewer tokens ahead. -/
theorem exists_run_fix (body : Parser α → Parser α) (c : Cursor) :
    ∃ inner : Parser α, (fix body).run c = (body inner).run c ∧
      ∀ d, d.ahead.length < c.ahead.length → inner.run d = (fix body).run d := by
  refine ⟨_, by change (runFix body c).1 = _; rw [runFix], fun d hd => ?_⟩
  simp only [hd, dite_true]
  rfl

end Runs

/-- With fewer than `n` tokens ahead, `p` reads `a` from the tokens `ts`, unless the token behind
them is of a kind with which it could go on. -/
def Restores {α : Type} (p : Parser α) (n : Nat) (barred : List TokenKind) (ts : List Token)
    (a : α) : Prop :=
  ∀ c d, c.Blank n → c.Passes ts d → d.peek.kind ∉ barred → p.run c = .done a d

/-! ### Shapes -/

section Shapes

variable {α β : Type} {n : Nat} {item : Parser α} {tok : β → List Token} {val : β → α}
  {barred : List TokenKind}

theorem Restores.mono {p : Parser α} {ts : List Token} {a : α} {m : Nat} {barred' : List TokenKind}
    (h : p.Restores n barred ts a) (hm : m ≤ n) (hbarred : barred ⊆ barred') :
    p.Restores m barred' ts a := by
  intro c d hc hpass hd
  exact h c d (hc.mono hm) hpass fun hmem => hd (hbarred hmem)

theorem Restores.behind {kind : TokenKind} {ts : List Token} {a : α}
    (h : item.Restores n barred ts a) :
    (Parser.behind? kind item).Restores (n + 1) barred (mark kind :: ts) (some a) := by
  intro c d hc hpass hd
  refine run_bind_of_done (run_eat? hpass rfl) ?_
  refine run_bind_of_done (h c.advance d (hc.advance hpass) hpass.tail hd) ?_
  rfl

theorem restores_absent (kind : TokenKind) (item : Parser α) (n : Nat) :
    (Parser.behind? kind item).Restores n [kind] [] none := by
  intro c d hc hpass hd
  obtain rfl := hpass.eq_of_nil
  refine run_bind_of_done (run_eat?_none fun hkind => hd ?_) rfl
  rw [hkind]
  exact List.mem_singleton_self kind

theorem Restores.behind? {kind : TokenKind} {x? : Option β}
    (h : ∀ b ∈ x?, item.Restores n barred (tok b) (val b)) :
    (Parser.behind? kind item).Restores (n + 1) (kind :: barred)
      (Rendering.behind kind (x?.map tok)) (x?.map val) := by
  cases x? with
  | none => exact (restores_absent kind item (n + 1)).mono (Nat.le_refl _) (by simp)
  | some b => exact (h b rfl).behind.mono (Nat.le_refl _) (List.subset_cons_self ..)

theorem Restores.many {item : Parser (Option α)} {stops : List TokenKind} {bs : List β}
    (hitem : ∀ b ∈ bs, item.Restores n barred (tok b) (some (val b)))
    (hstop : item.Restores n stops [] none)
    (hhead : ∀ b ∈ bs, ∃ t ts, tok b = t :: ts ∧ t.kind ∉ barred) :
    (Parser.many item).Restores n (stops ++ barred) (bs.flatMap tok) (bs.map val) := by
  intro c d hc hpass hd
  rw [List.mem_append, not_or] at hd
  induction bs generalizing c with
  | nil => exact run_many_nil (hstop c d hc hpass hd.1)
  | cons b bs ih =>
    rw [List.flatMap_cons] at hpass
    obtain ⟨m, hb, hrest⟩ := hpass.split
    have hm : m.peek.kind ∉ barred := by
      cases bs with
      | nil =>
        obtain rfl := hrest.eq_of_nil
        exact hd.2
      | cons b' bs =>
        obtain ⟨t, ts, htok, ht⟩ := hhead b' (by simp)
        rw [List.flatMap_cons, htok] at hrest
        rw [hrest.head]
        exact ht
    have hothers := ih (fun b hb => hitem b (List.mem_cons_of_mem _ hb))
      (fun b hb => hhead b (List.mem_cons_of_mem _ hb)) m (hb.blank hc) hrest
    have hne : tok b ≠ [] := by
      obtain ⟨t, ts, htok, -⟩ := hhead b (List.mem_cons_self ..)
      simp [htok]
    exact run_many_cons hne hb (hitem b (List.mem_cons_self ..) c m hc hb hm) hothers

theorem separated_cons (kind : TokenKind) (ts : List Token) (tss : List (List Token)) :
    separated kind (ts :: tss) = ts ++ tss.flatMap fun us => mark kind :: us := by
  induction tss generalizing ts with
  | nil => simp [separated]
  | cons us tss ih => rw [separated, ih, List.flatMap_cons, List.cons_append]

theorem Restores.commaList {b : β} {bs : List β}
    (hitem : ∀ x ∈ b :: bs, item.Restores n barred (tok x) (val x)) (hcomma : .comma ∉ barred) :
    (Parser.commaList item).Restores n (.comma :: barred) (separated .comma ((b :: bs).map tok))
      ((b :: bs).map val) := by
  have hothers : (Parser.many (Parser.behind? .comma item)).Restores n (.comma :: barred)
      (bs.flatMap fun x => mark .comma :: tok x) (bs.map val) := by
    have hstop := restores_absent .comma item n
    refine Restores.many (fun x hx => ?_) hstop fun x _ => ⟨_, _, rfl, hcomma⟩
    exact (hitem x (List.mem_cons_of_mem _ hx)).behind.mono (Nat.le_succ n) (List.Subset.refl _)
  intro c d hc hpass hd
  rw [List.map_cons, separated_cons, List.flatMap_map] at hpass
  obtain ⟨m, hb, hrest⟩ := hpass.split
  have hm : m.peek.kind ∉ barred := by
    cases bs with
    | nil =>
      obtain rfl := hrest.eq_of_nil
      exact fun hmem => hd (List.mem_cons_of_mem _ hmem)
    | cons x bs =>
      rw [List.flatMap_cons, List.cons_append] at hrest
      rw [hrest.head]
      exact hcomma
  refine run_bind_of_done (hitem b (List.mem_cons_self ..) c m hc hb hm) ?_
  exact run_bind_of_done (hothers m d (hb.blank hc) hrest hd) rfl

theorem Restores.enclosedBehind {bs : List β} {l : Token} (hl : l.kind = .leftParen)
    (hitem : ∀ b ∈ bs, item.Restores n barred (tok b) (val b)) (hcomma : .comma ∉ barred)
    (hparen : .rightParen ∉ barred)
    (hhead : ∀ b ∈ bs, ∃ t ts, tok b = t :: ts ∧ t.kind ≠ .rightParen) :
    (Parser.enclosed .leftParen .rightParen item).Restores (n + 1) []
      (l :: (separated .comma (bs.map tok) ++ [mark .rightParen])) (bs.map val) := by
  intro c d hc hpass _
  refine run_bind_of_done (run_expect hpass hl _) ?_
  have hinside := hpass.tail
  cases bs with
  | nil =>
    refine run_bind_of_done (run_eat? hinside rfl) ?_
    obtain rfl := hinside.tail.eq_of_nil
    rfl
  | cons b bs =>
    obtain ⟨m, hitems, hright⟩ := hinside.split
    have hfirst : c.advance.peek.kind ≠ .rightParen := by
      obtain ⟨t, ts, htok, ht⟩ := hhead b (List.mem_cons_self ..)
      rw [List.map_cons, separated_cons, htok, List.cons_append] at hitems
      rw [hitems.head]
      exact ht
    have hm : m.peek.kind ∉ .comma :: barred := by
      rw [hright.head, List.mem_cons, not_or]
      exact ⟨by decide, hparen⟩
    refine run_bind_of_done (run_eat?_none hfirst) ?_
    refine run_bind_of_done (Restores.commaList hitem hcomma _ _ (hc.advance hpass) hitems hm) ?_
    refine run_bind_of_done (run_expect hright rfl _) ?_
    obtain rfl := hright.tail.eq_of_nil
    rfl

theorem Restores.enclosed {bs : List β}
    (hitem : ∀ b ∈ bs, item.Restores n barred (tok b) (val b)) (hcomma : .comma ∉ barred)
    (hparen : .rightParen ∉ barred)
    (hhead : ∀ b ∈ bs, ∃ t ts, tok b = t :: ts ∧ t.kind ≠ .rightParen) :
    (Parser.enclosed .leftParen .rightParen item).Restores (n + 1) []
      (parens (separated .comma (bs.map tok))) (bs.map val) :=
  enclosedBehind rfl hitem hcomma hparen hhead

theorem Restores.bracketedOnLine {bs : List β}
    (hitem : ∀ b ∈ bs, item.Restores n barred (tok b) (val b)) (hcomma : .comma ∉ barred)
    (hbracket : .rightBracket ∉ barred) :
    (Parser.bracketedOnLine item).Restores (n + 1) [.leftBracket] (bracketed (bs.map tok))
      (bs.map val) := by
  intro c d hc hpass hd
  cases bs with
  | nil =>
    obtain rfl := hpass.eq_of_nil
    refine (run_if_false (Cursor.isAtOnLine_eq_false ?_)).trans rfl
    exact fun hkind => hd (by simp [hkind])
  | cons b bs =>
    refine (run_if_true (by rw [hpass.isAtOnLine rfl]; rfl)).trans ?_
    refine run_bind_of_done (run_next hpass) ?_
    obtain ⟨m, hitems, hright⟩ := hpass.tail.split
    have hm : m.peek.kind ∉ .comma :: barred := by
      rw [hright.head, List.mem_cons, not_or]
      exact ⟨by decide, hbracket⟩
    refine run_bind_of_done (Restores.commaList hitem hcomma _ _ (hc.advance hpass) hitems hm) ?_
    refine run_bind_of_done (run_expect hright rfl _) ?_
    obtain rfl := hright.tail.eq_of_nil
    rfl

theorem run_many_closed {round : Parser (Option α)} {bs : List β}
    (hstep : ∀ b ∈ bs, ∀ ss, ss = [] ∨ ss = [mark .semicolon] → ∀ c m, c.Blank n →
      c.Passes (ss ++ tok b) m → m.peek.kind = .semicolon ∨ m.peek.kind = .rightBrace →
      round.run c = .done (some (val b)) m)
    (hstop : ∀ c d, c.Passes [mark .rightBrace] d → round.run c = .done none d)
    (hne : ∀ b ∈ bs, tok b ≠ []) {c d : Cursor} (hc : c.Blank n)
    (hpass : c.Passes (separated .semicolon (bs.map tok) ++ [mark .rightBrace]) d) :
    (Parser.many round).run c = .done (bs.map val) d := by
  -- What is still to be read ends with the brace and begins with a semicolon or with the brace.
  have hbehind : ∀ (bs' : List β) (m : Cursor),
      m.Passes (bs'.flatMap (fun b => mark .semicolon :: tok b) ++ [mark .rightBrace]) d →
      m.peek.kind = .semicolon ∨ m.peek.kind = .rightBrace := by
    intro bs' m hm
    cases bs' with
    | nil => exact .inr (congrArg Token.kind hm.head)
    | cons b bs' => exact .inl (congrArg Token.kind hm.head)
  have hothers : ∀ bs' : List β, (∀ b ∈ bs', b ∈ bs) → ∀ m : Cursor, m.Blank n →
      m.Passes (bs'.flatMap (fun b => mark .semicolon :: tok b) ++ [mark .rightBrace]) d →
      (Parser.many round).run m = .done (bs'.map val) d := by
    intro bs'
    induction bs' with
    | nil => exact fun _ m _ hm => run_many_nil (hstop m d hm)
    | cons b bs' ih =>
      intro hsub m hm hpass
      rw [List.flatMap_cons, List.append_assoc] at hpass
      obtain ⟨e, hb, hrest⟩ := hpass.split
      have hmem := hsub b (List.mem_cons_self ..)
      have hround := hstep b hmem [mark .semicolon] (.inr rfl) m e hm hb (hbehind bs' e hrest)
      refine run_many_cons (by simp) hb hround ?_
      exact ih (fun x hx => hsub x (List.mem_cons_of_mem _ hx)) e (hb.blank hm) hrest
  cases bs with
  | nil => exact run_many_nil (hstop c d hpass)
  | cons b bs =>
    rw [List.map_cons, separated_cons, List.flatMap_map, List.append_assoc] at hpass
    obtain ⟨e, hb, hrest⟩ := hpass.split
    have hround := hstep b (List.mem_cons_self ..) [] (.inl rfl) c e hc hb (hbehind bs e hrest)
    refine run_many_cons (hne b (List.mem_cons_self ..)) hb hround ?_
    exact hothers bs (fun x hx => List.mem_cons_of_mem _ hx) e (hb.blank hc) hrest

theorem run_skipSemicolons {ss us : List Token} {c m e : Cursor} {t : Token}
    (hss : ss = [] ∨ ss = [mark .semicolon]) (hpass : c.Passes ss m) (hm : m.Passes (t :: us) e)
    (ht : t.kind ≠ .semicolon) : skipSemicolons.run c = .done () m := by
  refine congrArg (Outcome.done ()) (hpass.skipWhile ?_ hm.ahead (by simpa using ht))
  rcases hss with rfl | rfl <;> simp [mark, plain]

theorem run_statementEnd {closing : TokenKind} {c : Cursor}
    (h : c.peek.kind = .semicolon ∨ c.peek.kind = closing) :
    (statementEnd closing).run c = .done () c := by
  rcases h with h | h <;> simp [statementEnd, Cursor.isAt, h]

theorem Restores.statements {bs : List β}
    (hitem : ∀ b ∈ bs, item.Restores n barred (tok b) (val b)) (hsemicolon : .semicolon ∉ barred)
    (hbrace : .rightBrace ∉ barred)
    (hhead : ∀ b ∈ bs, ∃ t ts, tok b = t :: ts ∧ t.kind ∉ [.semicolon, .rightBrace]) :
    (Parser.statements item).Restores (n + 1) [] (braced (bs.map tok)) (bs.map val) := by
  intro c d hc hpass _
  refine run_bind_of_done (run_expect hpass rfl _) ?_
  refine run_many_closed (fun b hb ss hss c m hc hpass hm => ?_) (fun c d hpass => ?_)
    (fun b hb => ?_) (hc.advance hpass) hpass.tail
  · obtain ⟨t, ts, htok, ht⟩ := hhead b hb
    simp only [List.mem_cons, List.not_mem_nil, or_false, not_or] at ht
    obtain ⟨e, hsemicolons, hrest⟩ := hpass.split
    have hrest' := hrest
    rw [htok] at hrest'
    have hend : m.peek.kind ∉ barred := by rcases hm with hm | hm <;> rwa [hm]
    refine run_bind_of_done (run_skipSemicolons hss hsemicolons hrest' ht.1) ?_
    refine run_bind_of_done (run_eat?_none (by rw [hrest'.head]; exact ht.2)) ?_
    refine run_bind_of_done (hitem b hb e m (hsemicolons.blank hc) hrest hend) ?_
    exact run_bind_of_done (run_statementEnd hm) rfl
  · refine run_bind_of_done (run_skipSemicolons (.inl rfl) (.refl c) hpass (by decide)) ?_
    refine run_bind_of_done (run_eat? hpass rfl) ?_
    obtain rfl := hpass.tail.eq_of_nil
    rfl
  · obtain ⟨t, ts, htok, -⟩ := hhead b hb
    simp [htok]

/-- To restore something nested, it is enough to restore it where everything that is restored inside
it is restored. -/
theorem restores_fix {body : Parser α → Parser α} {ts : List Token} {a : α}
    (h : ∀ inner n, (∀ barred ts a, (∀ m, (fix body).Restores m barred ts a) →
      inner.Restores n barred ts a) → (body inner).Restores (n + 1) barred ts a) (n : Nat) :
    (fix body).Restores n barred ts a := by
  intro c d hc hpass hd
  obtain ⟨inner, hrun, hinner⟩ := exists_run_fix body c
  rw [hrun]
  have hblank : c.Blank (c.ahead.length + 1) :=
    ⟨hc.previous, hc.ahead, hc.final, Nat.lt_succ_self _⟩
  refine h inner c.ahead.length ?_ c d hblank hpass hd
  intro barred ts a hfix c' d' hc' hpass' hd'
  rw [hinner c' hc'.length]
  exact hfix _ c' d' hc' hpass' hd'

end Shapes

theorem run_identifier_of_kind {c d : Cursor} {t : Token} {ts : List Token}
    (h : c.Passes (t :: ts) d) (ht : t.kind = .identifier) :
    identifier.run c = .done t.ident c.advance :=
  run_bind_of_done (run_expect h ht _) rfl

theorem run_identifier {c d : Cursor} {name : Ident} {ts : List Token}
    (h : c.Passes (word name :: ts) d) : identifier.run c = .done name.unplaced c.advance :=
  run_identifier_of_kind h rfl

theorem run_memberName {c d : Cursor} {name : Ident} {ts : List Token}
    (h : c.Passes (memberWord name :: ts) d) :
    memberName.run c = .done name.unplaced c.advance := by
  rw [memberWord] at h
  split at h
  next =>
    refine (run_if_true (by rw [h.isAt]; rfl)).trans ?_
    exact run_bind_of_done (run_next h) rfl
  next =>
    refine (run_if_false (by rw [h.isAt]; rfl)).trans ?_
    exact run_identifier h

/-! ### Types -/

def typeBarred : List TokenKind := [.leftBracket, .arrow]

section Types

variable {n : Nat} {first : Bool} {type : Parser TypeExpr}

theorem head_ofType (a : TypeExpr) : ∃ t ts, ofType a = t :: ts ∧ t.kind ≠ .rightParen := by
  cases a with
  | named => exact ⟨_, _, by rw [ofType], by simp [word, plain]⟩
  | function => exact ⟨_, _, by rw [ofType]; rfl, by decide⟩
  | tuple => exact ⟨_, _, by rw [ofType]; rfl, by decide⟩

theorem ofType_lined (a : TypeExpr) : (ofType a).modifyHead (Token.lined false) = ofType a := by
  cases a with
  | named =>
    rw [ofType]
    rfl
  | function =>
    rw [ofType]
    rfl
  | tuple =>
    rw [ofType]
    rfl

theorem restores_namedTypeWith {a : NamedType}
    (hargs : ∀ b ∈ a.arguments, type.Restores n typeBarred (ofType b) b.unplaced) :
    (namedTypeWith type).Restores (n + 1) [.leftBracket]
      ((ofNamed a).modifyHead (Token.lined first)) a.unplaced := by
  intro c d hc hpass hd
  have hbrackets := Restores.bracketedOnLine hargs (by decide) (by decide)
  refine run_bind_of_done (run_identifier_of_kind hpass rfl) ?_
  refine run_bind_of_done (hbrackets c.advance d (hpass.first.blank hc) hpass.tail hd) ?_
  rw [run_look, (hpass.blank hc).previousSpan]
  rfl

theorem ofType_toTypeExpr (a : NamedType) : ofType a.toTypeExpr = ofNamed a := by
  rw [NamedType.toTypeExpr, ofType, ofTypes_eq, ofNamed]

theorem restores_named {a : NamedType}
    (hargs : ∀ b ∈ a.arguments, type.Restores n typeBarred (ofType b) b.unplaced) :
    (typeBody type).Restores (n + 1) typeBarred
      ((ofType a.toTypeExpr).modifyHead (Token.lined first)) a.toTypeExpr.unplaced := by
  intro c d hc hpass hd
  simp only [typeBarred, List.mem_cons, List.not_mem_nil, or_false, not_or] at hd
  rw [ofType_toTypeExpr] at hpass
  have hnamed := restores_namedTypeWith hargs c d hc hpass (by simpa using hd.1)
  refine (run_look _).trans ((run_if_false (by rw [hpass.isAt]; rfl)).trans ?_)
  refine run_bind_of_done hnamed ?_
  refine (run_if_false (Cursor.isAtOnLine_eq_false hd.2)).trans ?_
  rw [NamedType.toTypeExpr_unplaced]
  rfl

theorem restores_types {as : List TypeExpr}
    (has : ∀ b ∈ as, type.Restores n typeBarred (ofType b) b.unplaced) :
    (enclosed .leftParen .rightParen type).Restores (n + 1) []
      ((parens (separated .comma (ofTypes as))).modifyHead (Token.lined first))
      (as.map TypeExpr.unplaced) := by
  rw [ofTypes_eq]
  exact Restores.enclosedBehind rfl has (by decide) (by decide) fun b _ => head_ofType b

theorem restores_function {as : List TypeExpr} {r : TypeExpr} {span : Span}
    (has : ∀ b ∈ as, type.Restores n typeBarred (ofType b) b.unplaced)
    (hr : type.Restores n typeBarred (ofType r) r.unplaced) :
    (typeBody type).Restores (n + 1) typeBarred
      ((ofType (.function as r span)).modifyHead (Token.lined first))
      (TypeExpr.function as r span).unplaced := by
  intro c d hc hpass hd
  rw [ofType] at hpass
  have hsplit : c.Passes ((parens (separated .comma (ofTypes as))).modifyHead (Token.lined first) ++
      mark .arrow :: ofType r) d := hpass
  refine (run_look _).trans ((run_if_true (by rw [hpass.isAt]; rfl)).trans ?_)
  obtain ⟨m, hparens, harrow⟩ := hsplit.split
  refine run_bind_of_done (restores_types has c m hc hparens (by simp)) ?_
  refine run_bind_of_done (hr.behind m d (hparens.blank hc) harrow hd) ?_
  rw [hc.peek]
  simp only [TypeExpr.span_unplaced, Span.through_topOfFile, TypeExpr.unplaced,
    TypeExpr.unplacedAll_eq]
  rfl

theorem restores_tuple {as : List TypeExpr} {span : Span} (hlength : as.length ≠ 1)
    (has : ∀ b ∈ as, type.Restores n typeBarred (ofType b) b.unplaced) :
    (typeBody type).Restores (n + 1) typeBarred
      ((ofType (.tuple as span)).modifyHead (Token.lined first))
      (TypeExpr.tuple as span).unplaced := by
  intro c d hc hpass hd
  simp only [typeBarred, List.mem_cons, List.not_mem_nil, or_false, not_or] at hd
  rw [ofType] at hpass
  refine (run_look _).trans ((run_if_true (by rw [hpass.isAt]; rfl)).trans ?_)
  refine run_bind_of_done (restores_types has c d hc hpass (by simp)) ?_
  refine run_bind_of_done (run_bind_of_done (run_eat?_none hd.2) rfl) ?_
  dsimp only
  split
  next h =>
    exact absurd (by simpa using congrArg List.length h) hlength
  next =>
    rw [run_look, hc.peek, (hpass.blank hc).previousSpan]
    simp only [TypeExpr.unplaced, TypeExpr.unplacedAll_eq]
    rfl

end Types

theorem restores_lined {ts : List Token} {a : TypeExpr} (h : OfType ts a) (first : Bool) (n : Nat) :
    typeExpr.Restores n typeBarred ((ofType a).modifyHead (Token.lined first)) a.unplaced := by
  induction h generalizing first n with
  | named _ hn ih =>
    refine restores_fix (fun inner n hinner => restores_named fun b hb => ?_) n
    obtain ⟨us, -, hus⟩ := hn.exists_of_mem hb
    exact hinner _ _ _ fun m => ofType_lined b ▸ ih us b hus false m
  | @arrow _ _ name _ _ r _ hn _ _ ih ihr =>
    have hnamed : ∀ m, typeExpr.Restores m typeBarred (ofType name.toTypeExpr)
        name.toTypeExpr.unplaced := fun m => ofType_lined name.toTypeExpr ▸
      restores_fix (fun inner n hinner => restores_named fun b hb => by
        obtain ⟨us, -, hus⟩ := hn.exists_of_mem hb
        exact hinner _ _ _ fun m => ofType_lined b ▸ ih us b hus false m) m
    refine restores_fix (fun inner n hinner => restores_function (fun b hb => ?_) ?_) n
    · obtain rfl := List.mem_singleton.mp hb
      exact hinner _ _ _ hnamed
    · exact hinner _ _ _ fun m => ofType_lined r ▸ ihr false m
  | @function _ _ _ _ _ r _ has _ _ ih ihr =>
    refine restores_fix (fun inner n hinner => restores_function (fun b hb => ?_) ?_) n
    · obtain ⟨us, -, hus⟩ := has.exists_of_mem hb
      exact hinner _ _ _ fun m => ofType_lined b ▸ ih us b hus false m
    · exact hinner _ _ _ fun m => ofType_lined r ▸ ihr false m
  | group _ has ih =>
    obtain ⟨us, -, hus⟩ := has.exists_of_mem (List.mem_singleton_self _)
    exact ih us _ hus first n
  | tuple _ has hlength ih =>
    refine restores_fix (fun inner n hinner => restores_tuple hlength fun b hb => ?_) n
    obtain ⟨us, -, hus⟩ := has.exists_of_mem hb
    exact hinner _ _ _ fun m => ofType_lined b ▸ ih us b hus false m

theorem restores_typeExpr {ts : List Token} {a : TypeExpr} (h : OfType ts a) (n : Nat) :
    typeExpr.Restores n typeBarred (ofType a) a.unplaced :=
  ofType_lined a ▸ restores_lined h false n

theorem restores_namedType {ts : List Token} {a : NamedType} (h : OfNamed OfType ts a) (n : Nat) :
    namedType.Restores n [.leftBracket] (ofNamed a) a.unplaced := by
  have hnamed : namedType.Restores (n + 1) [.leftBracket]
      ((ofNamed a).modifyHead (Token.lined false)) a.unplaced :=
    restores_namedTypeWith fun b hb => by
      obtain ⟨us, -, hus⟩ := h.exists_of_mem hb
      exact restores_typeExpr hus n
  exact hnamed.mono (Nat.le_succ n) (List.Subset.refl _)

theorem restores_typeAnnotation? {ts : List Token} {a : Option TypeExpr}
    (h : Behind .colon OfType ts a) (n : Nat) :
    typeAnnotation?.Restores n (.colon :: typeBarred) (Rendering.behind .colon (a.map ofType))
      (a.map TypeExpr.unplaced) := by
  have hbehind : typeAnnotation?.Restores (n + 1) (.colon :: typeBarred)
      (Rendering.behind .colon (a.map ofType)) (a.map TypeExpr.unplaced) :=
    Restores.behind? fun b hb => by
      obtain ⟨us, -, hus⟩ := h.exists_of_mem hb
      exact restores_typeExpr hus n
  exact hbehind.mono (Nat.le_succ n) (List.Subset.refl _)

end Parser

end Mixin
