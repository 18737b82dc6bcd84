import Mixin.Proofs.Grammar.Errors
import Mixin.Proofs.Token.Partition

/-!
# Reading goes on behind errors

After an error reading goes on behind the token at which it gave up, at the first definition that
begins a line. So the errors of a text advance (`Program.errors_advance`), and every definition that
begins a line is tried in its turn, unless an error was found at its first word or while more of its
modifiers were read (`Program.reading_resumes`).
-/

namespace Mixin

open Spelling

/-! ### The order of places -/

namespace Cursor

variable {c d e : Cursor} {ts us : List Token}

theorem Passes.cancel (h : c.Passes ts d) (h' : c.Passes (ts ++ us) e) : d.Passes us e where
  ahead := by
    have hahead := h'.ahead
    rw [h.ahead, List.append_assoc] at hahead
    exact List.append_cancel_left hahead
  previous := by rw [h'.previous, h.previous, List.getLast?_append, Option.or_assoc]
  final := h'.final.trans h.final.symm

theorem Precedes.total (hd : c.Precedes d) (he : c.Precedes e) : d.Precedes e ∨ e.Precedes d := by
  obtain ⟨ts, hts⟩ := hd
  obtain ⟨us, hus⟩ := he
  rcases List.append_eq_append_iff.mp (hts.ahead.symm.trans hus.ahead) with
    ⟨vs, rfl, -⟩ | ⟨vs, rfl, -⟩
  · exact .inl ⟨vs, hts.cancel hus⟩
  · exact .inr ⟨vs, hus.cancel hts⟩

theorem Precedes.eq_or_advance (h : c.Precedes d) : c = d ∨ c.advance.Precedes d := by
  obtain ⟨ts, hts⟩ := h
  cases ts with
  | nil => exact .inl hts.eq_of_nil
  | cons t ts => exact .inr ⟨ts, (passes_advance hts.ahead).cancel hts⟩

/-! ### Definitions that begin a line -/

/-- A definition begins here, and a line. -/
structure StartsDefinition (c : Cursor) : Prop where
  line : c.peek.startsLine = true
  definition : c.atDefinition = true

instance (c : Cursor) : Decidable c.StartsDefinition :=
  decidable_of_iff (c.peek.startsLine = true ∧ c.atDefinition = true)
    ⟨fun h => ⟨h.1, h.2⟩, fun h => ⟨h.line, h.definition⟩⟩

theorem exists_word_of_atDefinition (h : c.atDefinition = true) :
    ∃ ms w us, c.ahead = ms ++ w :: us ∧ (∀ t ∈ ms, t.kind.modifier?.isSome = true) ∧
      w.kind.isInner = false := by
  unfold atDefinition at h
  split at h
  next k lexeme span line hhead =>
    obtain ⟨us, hus⟩ := List.head?_eq_some_iff.mp hhead
    refine ⟨c.ahead.takeWhile fun t => t.kind.modifier?.isSome, ⟨.typeKind k, lexeme, span, line⟩,
      us, ?_, fun t ht => ?_, rfl⟩
    · rw [← hus, List.takeWhile_append_dropWhile]
    · have hmodifier := List.mem_takeWhile_imp ht
      exact hmodifier
  next => cases h

/-- The place `d` is the first one from `c` on where a definition begins a line, or the end of the
text if there is none. -/
structure ResumesAt (c d : Cursor) : Prop where
  precedes : c.Precedes d
  starts : d.StartsDefinition ∨ d.ahead = []
  first : ∀ e, c.Precedes e → e.StartsDefinition → d.Precedes e

theorem resumesAt_recover (c : Cursor) : c.advance.ResumesAt c.recover := by
  suffices h : ∀ previous ahead,
      ResumesAt ⟨previous, ahead, c.final⟩ (recover.go c previous ahead) by
    have hfinal : c.advance.final = c.final := by
      obtain ⟨ts, hts⟩ := c.precedes_advance
      exact hts.final
    have hgo := h c.advance.previous c.advance.ahead
    rw [← hfinal] at hgo
    exact hgo
  -- Each token that is skipped becomes the previous one.
  intro previous ahead
  induction ahead generalizing previous with
  | nil => exact ⟨.refl _, .inr rfl, fun e he _ => he⟩
  | cons t rest ih =>
    rw [recover.go]
    split
    next hstarts =>
      obtain ⟨hline, hdefinition⟩ := Bool.and_eq_true_iff.mp hstarts
      exact ⟨.refl _, .inl ⟨hline, hdefinition⟩, fun e he _ => he⟩
    next hstays =>
      have hpass : Precedes ⟨previous, t :: rest, c.final⟩ ⟨some t, rest, c.final⟩ :=
        ⟨[t], rfl, rfl, rfl⟩
      obtain ⟨hprecedes, hstarts, hfirst⟩ := ih (some t)
      refine ⟨hpass.trans hprecedes, hstarts, fun e he hbegins => ?_⟩
      rcases he.eq_or_advance with rfl | he
      · exact absurd (Bool.and_eq_true_iff.mpr ⟨hbegins.line, hbegins.definition⟩) hstays
      · exact hfirst e he hbegins

theorem peek_of_atDefinition (h : c.atDefinition = true) :
    c.ahead ≠ [] ∧ c.peek.kind ≠ .semicolon := by
  obtain ⟨ms, w, us, hahead, hms, hw⟩ := exists_word_of_atDefinition h
  cases ms with
  | nil =>
    refine ⟨by simp [hahead], fun hpeek => ?_⟩
    have hkind : w.kind = .semicolon := by simpa [peek, hahead] using hpeek
    rw [hkind] at hw
    cases hw
  | cons m ms =>
    refine ⟨by simp [hahead], fun hpeek => ?_⟩
    have hkind : m.kind = .semicolon := by simpa [peek, hahead] using hpeek
    have hm := hms m List.mem_cons_self
    rw [hkind] at hm
    cases hm

/-- The token for the end of the text stands behind all others, and only there. -/
structure Whole (c : Cursor) : Prop where
  final : c.final.kind = .eof
  inner : ∀ t ∈ c.ahead, t.kind ≠ .eof

theorem Whole.of_precedes (hc : c.Whole) (h : c.Precedes d) : d.Whole := by
  obtain ⟨ts, hts⟩ := h
  refine ⟨hts.final ▸ hc.final, fun t ht => hc.inner t ?_⟩
  rw [hts.ahead]
  exact List.mem_append_right _ ht

theorem Whole.ahead_eq_nil (hc : c.Whole) (hpeek : c.peek.kind = .eof) : c.ahead = [] := by
  cases hahead : c.ahead with
  | nil => rfl
  | cons t rest =>
    have hkind : t.kind = .eof := by simpa [peek, hahead] using hpeek
    exact absurd hkind (hc.inner t (by simp [hahead]))

/-- No modifier stands right before this place. -/
def BeginsHead (c : Cursor) : Prop := ∀ t ∈ c.previous, t.kind.modifier? = none

/-- Where only the head of one definition is passed, a definition that begins further on is passed
at most as far as its modifiers go. -/
theorem isSome_modifier?_of_oneHead (hoc : Token.OneHead (ts ++ us)) (hd : d.atDefinition = true)
    (hhead : d.BeginsHead) (hts : c.Passes ts d) (hne : ts ≠ []) (hus : d.Passes us e) :
    ∀ t ∈ us, t.kind.modifier?.isSome = true := by
  obtain ⟨ms, w, vs, hahead, hms, hw⟩ := exists_word_of_atDefinition hd
  rcases List.append_eq_append_iff.mp (hus.ahead.symm.trans hahead) with
    ⟨xs, rfl, -⟩ | ⟨xs, rfl, hxs⟩
  · exact fun t ht => hms t (List.mem_append_left _ ht)
  · cases xs with
    | nil => simpa using hms
    | cons x xs =>
      -- The word that introduces the second definition is passed too, behind something that is no
      -- modifier.
      obtain ⟨rfl, -⟩ := List.cons.inj hxs
      have hall := hoc (ts ++ ms) w xs (by simp) hw
      have hlast := List.getLast_mem hne
      have hprevious : d.previous = some (ts.getLast hne) := by
        rw [hts.previous, List.getLast?_eq_some_getLast hne, Option.some_or]
      have hnone := hhead _ hprevious
      simpa [hnone] using hall _ (List.mem_append_left _ hlast)

end Cursor

/-! ### The last token of a definition -/

namespace Spelling

variable {α : Type} {R : Spelling α} {ts us : List Token}

/-- The last of the tokens, if there are any, is not a modifier. -/
def Settled (ts : List Token) : Prop := ∀ t ∈ ts.getLast?, t.kind.modifier? = none

theorem settled_nil : Settled [] := fun t ht => by cases ht

theorem settled_singleton {t : Token} (ht : t.kind.modifier? = none) : Settled [t] := by
  rintro _ ⟨⟩
  exact ht

theorem Settled.append (hts : Settled ts) (hus : Settled us) : Settled (ts ++ us) := by
  intro t ht
  rw [List.getLast?_append, Option.mem_def, Option.or_eq_some_iff] at ht
  rcases ht with ht | ⟨-, ht⟩
  · exact hus t ht
  · exact hts t ht

theorem Settled.cons {t : Token} (ht : t.kind.modifier? = none) (hts : Settled ts) :
    Settled (t :: ts) :=
  (settled_singleton ht).append hts

theorem Settled.behind (hus : Settled us) (hne : us ≠ []) : Settled (ts ++ us) := by
  intro t ht
  rw [List.getLast?_append, List.getLast?_eq_some_getLast hne, Option.some_or] at ht
  exact hus t (List.getLast?_eq_some_getLast hne ▸ ht)

theorem settled_concat {t : Token} (ht : t.kind.modifier? = none) : Settled (ts ++ [t]) :=
  (settled_singleton ht).behind (by simp)

theorem Between.settled {left right : TokenKind} {a : α} (h : Between left right R ts a)
    (hright : right.modifier? = none) : Settled ts := by
  obtain ⟨hl, ha, rfl⟩ := h
  rw [← List.cons_append]
  exact settled_concat hright

theorem Omissible.settled {R : Spelling (List α)} {as : List α} (h : Omissible R ts as)
    (hR : ∀ us as, R us as → Settled us) : Settled ts := by
  cases h with
  | absent => exact settled_nil
  | present h => exact hR _ _ h

theorem Chained.settled {as : List α} (h : Chained R ts as) (hR : ∀ us a, R us a → Settled us) :
    Settled ts := by
  induction h with
  | nil => exact settled_nil
  | cons ha _ ih => exact (hR _ _ ha).append ih

theorem Headed.settled {kind : TokenKind} {a : α} (h : Headed kind R ts a)
    (hkind : kind.modifier? = none) (hR : ∀ us a, R us a → Settled us) : Settled ts := by
  obtain ⟨rfl, ha⟩ := h
  exact (hR _ _ ha).cons hkind

theorem Closed.settled {as : List α} (h : Closed R ts as) : Settled ts := by
  suffices h : ts ≠ [] ∧ Settled ts from h.2
  induction h with
  | nil _ hr => exact ⟨by simp, settled_concat (by rw [hr]; rfl)⟩
  | cons _ _ _ ih => exact ⟨by simp [ih.1], (ih.2.behind ih.1).behind (by simp [ih.1])⟩

theorem OfNamed.settled {R : Spelling TypeExpr} {n : NamedType} (h : OfNamed R ts n) :
    Settled ts := by
  obtain ⟨ht, has⟩ := h
  exact (has.settled fun us as h => h.settled rfl).cons (by rw [ht]; rfl)

theorem OfParent.settled {p : Parent} (h : OfParent ts p) : Settled ts := by
  obtain ⟨hn, has⟩ := h
  exact hn.settled.append (has.settled fun us as h => h.settled rfl)

theorem OfParents.settled {ps : List Parent} (h : OfParents ts ps) : Settled ts := by
  cases h with
  | none => exact settled_nil
  | some hp hps =>
    have hfirst := hp.settled rfl fun us p => OfParent.settled
    exact hfirst.append (hps.settled fun us p h => h.settled rfl fun us p => OfParent.settled)

theorem OfTypeDef.settled {d : TypeDef} (h : OfTypeDef ts d) : Settled ts := by
  cases h with
  | @intro hs ms w kind t ts tps us ps vs parents bs members _ hw _ ht htps hps hparents hmembers =>
    have htypes : Settled ts := htps.settled fun us as h => h.settled rfl
    have hparameters : Settled us := by
      cases hps with
      | absent => exact settled_nil
      | present hps => exact hps.settled rfl
    have hbody : Settled bs := by
      exact hmembers.settled fun us as h => h.settled rfl fun us as h => h.settled
    have hname : Settled (w :: t :: (ts ++ (us ++ (vs ++ bs)))) := by
      refine Settled.cons (by rw [hw]; rfl) (Settled.cons (by rw [ht]; rfl) ?_)
      exact htypes.append (hparameters.append (hparents.settled.append hbody))
    exact hname.behind (by simp)

end Spelling

/-! ### Reading on -/

def Outcome.value? {α : Type} : Outcome α → Option α
  | done a _ => some a
  | failed _ _ => none
  | stuck => none

def Outcome.error? {α : Type} : Outcome α → Option SyntaxError
  | done _ _ => none
  | failed e _ => some e
  | stuck => none

namespace Program

open Cursor

/-- From `c` on definitions are tried at the places `ss`, one after another: behind a definition the
next one is tried, and behind an error the one at which reading goes on. -/
inductive Tries : Cursor → List Cursor → Prop
  | finish {c} (hend : (startFrom c).isAt .eof = true) : Tries c []
  | definition {c d rest ss} (hmore : (startFrom c).isAt .eof = false)
    (hrun : Parser.typeDef.run (startFrom c) = .done d rest) (hrest : Tries rest ss) :
    Tries c (startFrom c :: ss)
  | error {c e rest ss} (hmore : (startFrom c).isAt .eof = false)
    (hrun : Parser.typeDef.run (startFrom c) = .failed e rest) (hrest : Tries rest.recover ss) :
    Tries c (startFrom c :: ss)

def definitionAt? (s : Cursor) : Option TypeDef := (Parser.typeDef.run s).value?

def errorAt? (s : Cursor) : Option SyntaxError := (Parser.typeDef.run s).error?

/-- The definition that begins at `d` is not tried because of an error in the one that was tried at
`s` before it. That error was found at the first word of the definition at `d`, or while more of its
modifiers were read. -/
def Swallows (s d : Cursor) : Prop :=
  ∃ e rest ts us, Parser.typeDef.run s = .failed e rest ∧ s.Passes ts d ∧ ts ≠ [] ∧
    d.Passes us rest ∧ ∀ t ∈ us, t.kind.modifier?.isSome = true

variable {c d s rest : Cursor} {ss : List Cursor} {e : SyntaxError}

theorem ReadsTo.exists_tries {r : Reading} (h : ReadsTo c r) :
    ∃ ss, Tries c ss ∧ r = ⟨ss.filterMap definitionAt?, ss.filterMap errorAt?⟩ := by
  induction h with
  | finish hend => exact ⟨[], .finish hend, rfl⟩
  | definition hmore hrun _ ih =>
    obtain ⟨ss, hss, rfl⟩ := ih
    refine ⟨_, .definition hmore hrun hss, ?_⟩
    simp [definitionAt?, errorAt?, hrun, Outcome.value?, Outcome.error?]
  | error hmore hrun _ ih =>
    obtain ⟨ss, hss, rfl⟩ := ih
    refine ⟨_, .error hmore hrun hss, ?_⟩
    simp [definitionAt?, errorAt?, hrun, Outcome.value?, Outcome.error?]

theorem precedes_of_failed (h : Parser.typeDef.run s = .failed e rest) : s.Precedes rest :=
  (h ▸ Parser.typeDef.forward s) rest rfl

theorem Tries.precedes (h : Tries c ss) : (∀ s ∈ ss, c.Precedes s) ∧ ss.Pairwise Precedes := by
  induction h with
  | finish => exact ⟨by simp, .nil⟩
  | @definition c d rest ss _ hrun _ ih =>
    have hstart : c.Precedes (startFrom c) := c.precedes_skipWhile _
    have hothers : ∀ s ∈ ss, (startFrom c).Precedes s :=
      fun s hs => (Parser.precedes_of_run hrun).trans (ih.1 s hs)
    refine ⟨List.forall_mem_cons.mpr ⟨hstart, fun s hs => hstart.trans (hothers s hs)⟩, ?_⟩
    exact .cons hothers ih.2
  | @error c e rest ss _ hrun _ ih =>
    have hstart : c.Precedes (startFrom c) := c.precedes_skipWhile _
    have hrecover : (startFrom c).Precedes rest.recover :=
      (precedes_of_failed hrun).trans (rest.precedes_advance.trans rest.precedes_recover)
    have hothers : ∀ s ∈ ss, (startFrom c).Precedes s := fun s hs => hrecover.trans (ih.1 s hs)
    refine ⟨List.forall_mem_cons.mpr ⟨hstart, fun s hs => hstart.trans (hothers s hs)⟩, ?_⟩
    exact .cons hothers ih.2

theorem Tries.behind_error {pre post : List Cursor} (h : Tries c (pre ++ s :: post))
    (hrun : Parser.typeDef.run s = .failed e rest) : Tries rest.recover post := by
  induction pre generalizing c with
  | nil =>
    cases h with
    | definition _ hrun' => cases hrun.symm.trans hrun'
    | error _ hrun' hrest =>
      obtain ⟨-, rfl⟩ := Outcome.failed.inj (hrun.symm.trans hrun')
      exact hrest
  | cons p pre ih =>
    cases h with
    | definition _ _ hrest => exact ih hrest
    | error _ _ hrest => exact ih hrest

theorem startFrom_eq_self (h : c.atDefinition = true) : startFrom c = c :=
  skipWhile_eq_self (beq_eq_false_iff_ne.mpr (peek_of_atDefinition h).2)

theorem startFrom_precedes (h : c.Precedes d) (hd : d.atDefinition = true) :
    (startFrom c).Precedes d := by
  obtain ⟨ss, hss, hall⟩ := c.passes_skipWhile fun t => t.kind == .semicolon
  rcases h.total ⟨ss, hss⟩ with hbefore | hbehind
  · obtain ⟨ts, hts⟩ := h
    obtain ⟨us, hus⟩ := hbefore
    cases us with
    | nil => exact hus.eq_of_nil ▸ .refl _
    | cons u us =>
      obtain rfl := hss.unique (hts.trans hus)
      have hsemicolon : d.peek.kind = .semicolon := by
        have hu := beq_iff_eq.mp (hall u (by simp))
        simpa [peek, hus.ahead] using hu
      exact absurd hsemicolon (peek_of_atDefinition hd).2
  · exact hbehind

theorem Tries.head?_eq (h : Tries c ss) (hc : c.Whole) (hd : c.atDefinition = true) :
    ss.head? = some c := by
  have hstart := startFrom_eq_self hd
  cases h with
  | finish hend =>
    rw [hstart] at hend
    have hne := (peek_of_atDefinition hd).1
    exact absurd (hc.ahead_eq_nil (beq_iff_eq.mp hend)) hne
  | definition => rw [hstart]; rfl
  | error => rw [hstart]; rfl

theorem Tries.eq_nil (h : Tries c ss) (hc : c.final.kind = .eof) (hend : c.ahead = []) :
    ss = [] := by
  have hstart := isAt_eof_startFrom hc hend
  cases h with
  | finish => rfl
  | definition hmore => cases hstart.symm.trans hmore
  | error hmore => cases hstart.symm.trans hmore

/-! ### Definitions that are tried -/

/-- As far as the definition at `s` was read, only its own head was passed. -/
theorem oneHead_of_run {ts : List Token} (hs : s.final.kind = .eof)
    (hrest : (Parser.typeDef.run s).rest? = some rest) (hts : s.Passes ts rest) :
    Token.OneHead ts := by
  have hspells := Parser.spells_typeDef ⟨hs, Nat.lt_succ_self _⟩
  cases hrun : Parser.typeDef.run s with
  | done d rest' =>
    rw [hrun] at hspells hrest
    obtain rfl := Option.some.inj hrest
    obtain ⟨us, hus, -⟩ := hspells
    obtain rfl := hts.unique hus.toPasses
    exact hus.holds
  | failed e rest' =>
    rw [hrun] at hspells hrest
    obtain rfl := Option.some.inj hrest
    obtain ⟨us, hus, -⟩ := hspells
    obtain rfl := hts.unique hus.toPasses
    exact hus.holds
  | stuck =>
    rw [hrun] at hrest
    cases hrest

theorem passed_modifiers (hs : s.final.kind = .eof)
    (hrest : (Parser.typeDef.run s).rest? = some rest) (hsd : s.Precedes d)
    (hdr : d.Precedes rest) (hd : d.atDefinition = true) (hhead : d.BeginsHead) :
    d = s ∨ ∃ ts us, s.Passes ts d ∧ ts ≠ [] ∧ d.Passes us rest ∧
      ∀ t ∈ us, t.kind.modifier?.isSome = true := by
  obtain ⟨ts, hts⟩ := hsd
  obtain ⟨us, hus⟩ := hdr
  by_cases hne : ts = []
  · subst hne
    exact .inl hts.eq_of_nil.symm
  · have honehead := oneHead_of_run hs hrest (hts.trans hus)
    exact .inr ⟨ts, us, hts, hne, hus, isSome_modifier?_of_oneHead honehead hd hhead hts hne hus⟩

theorem precedes_of_done {x : TypeDef} (hs : s.final.kind = .eof)
    (hrun : Parser.typeDef.run s = .done x rest) (hsd : s.Precedes d)
    (hd : d.atDefinition = true) (hhead : d.BeginsHead) : d = s ∨ rest.Precedes d := by
  rcases hsd.total (Parser.precedes_of_run hrun) with hdr | hrd
  · rcases passed_modifiers hs (by rw [hrun]; rfl) hsd hdr hd hhead with
      rfl | ⟨ts, us, hts, -, hus, hmodifiers⟩
    · exact .inl rfl
    · cases us using List.reverseRecOn with
      | nil => exact .inr (hus.eq_of_nil ▸ .refl _)
      | append_singleton us u =>
        -- The last token of what was read is not a modifier.
        have hspells := Parser.spells_typeDef ⟨hs, Nat.lt_succ_self _⟩
        rw [hrun] at hspells
        obtain ⟨vs, hvs, hx⟩ := hspells
        obtain rfl := hvs.toPasses.unique (hts.trans hus)
        have hnone := hx.settled u (by simp)
        simpa [hnone] using hmodifiers u (by simp)
  · exact .inr hrd

theorem Tries.mem_or_swallows (h : Tries c ss) (hc : c.Whole) (hd : c.Precedes d)
    (hstarts : d.StartsDefinition) (hhead : d.BeginsHead) : d ∈ ss ∨ ∃ s ∈ ss, Swallows s d := by
  induction h with
  | @finish c hend =>
    obtain ⟨ts, hts⟩ := startFrom_precedes hd hstarts.definition
    have hstart : (startFrom c).Whole := hc.of_precedes (c.precedes_skipWhile _)
    have hnil := hts.ahead.symm.trans (hstart.ahead_eq_nil (beq_iff_eq.mp hend))
    exact absurd (List.append_eq_nil_iff.mp hnil).2 (peek_of_atDefinition hstarts.definition).1
  | @definition c x rest ss _ hrun _ ih =>
    have hstart : (startFrom c).Whole := hc.of_precedes (c.precedes_skipWhile _)
    have hsd := startFrom_precedes hd hstarts.definition
    rcases precedes_of_done hstart.final hrun hsd hstarts.definition hhead with rfl | hrd
    · exact .inl List.mem_cons_self
    · have hrest := hstart.of_precedes (Parser.precedes_of_run hrun)
      rcases ih hrest hrd with hmem | ⟨s, hs, hswallows⟩
      · exact .inl (List.mem_cons_of_mem _ hmem)
      · exact .inr ⟨s, List.mem_cons_of_mem _ hs, hswallows⟩
  | @error c e rest ss _ hrun _ ih =>
    have hstart : (startFrom c).Whole := hc.of_precedes (c.precedes_skipWhile _)
    have hsd := startFrom_precedes hd hstarts.definition
    have hrest := precedes_of_failed hrun
    -- A definition behind the token at which reading gave up is found again, one before it not.
    by_cases hdr : d.Precedes rest
    · rcases passed_modifiers hstart.final (by rw [hrun]; rfl) hsd hdr hstarts.definition hhead with
        rfl | ⟨ts, us, hts, hne, hus, hmodifiers⟩
      · exact .inl List.mem_cons_self
      · exact .inr ⟨_, List.mem_cons_self, e, rest, ts, us, hrun, hts, hne, hus, hmodifiers⟩
    · have hbehind : rest.advance.Precedes d := by
        have hrd := (hsd.total hrest).resolve_left hdr
        rcases hrd.eq_or_advance with rfl | hrd
        · exact absurd (.refl _) hdr
        · exact hrd
      have hrecover := rest.precedes_advance.trans rest.precedes_recover
      have hresumes := rest.resumesAt_recover.first d hbehind hstarts
      rcases ih (hstart.of_precedes (hrest.trans hrecover)) hresumes with hmem | ⟨s, hs, hswallows⟩
      · exact .inl (List.mem_cons_of_mem _ hmem)
      · exact .inr ⟨s, List.mem_cons_of_mem _ hs, hswallows⟩

theorem Tries.not_swallows (h : Tries c ss) (hs : s ∈ ss) (hswallows : Swallows s d)
    (hd : d.atDefinition = true) : d ∉ ss := by
  obtain ⟨e, rest, ts, us, hrun, hts, hne, hus, -⟩ := hswallows
  obtain ⟨pre, post, rfl⟩ := List.append_of_mem hs
  have hbefore : d.ahead.length < s.ahead.length := by
    have hpos := List.length_pos_iff.mpr hne
    rw [hts.ahead, List.length_append]
    omega
  intro hmem
  rcases List.mem_append.mp hmem with hpre | hpost
  · have hle := ((List.pairwise_append.mp h.precedes.2).2.2 d hpre s List.mem_cons_self).length_le
    omega
  rcases List.mem_cons.mp hpost with rfl | hpost
  · omega
  · have hle := ((h.behind_error hrun).precedes.1 d hpost).length_le
    have hrecover := rest.length_recover
    have hstop := Precedes.length_le ⟨us, hus⟩
    have hpos := List.length_pos_iff.mpr (peek_of_atDefinition hd).1
    omega

/-- How the definitions of a stream are read, which are tried at the places `ss`. -/
structure ResumesBehindErrors (stream : TokenStream) (ss : List Cursor) : Prop where
  tries : Tries (.ofStream stream) ss
  reading : readFrom (.ofStream stream) = ⟨ss.filterMap definitionAt?, ss.filterMap errorAt?⟩
  /-- Behind an error reading goes on at the first definition that begins a line, from the token
  behind the one on at which it gave up. -/
  resumes : ∀ pre s post e rest, ss = pre ++ s :: post →
    Parser.typeDef.run s = .failed e rest → ∃ d, rest.advance.ResumesAt d ∧
      (d.StartsDefinition ∧ post.head? = some d ∨ d.ahead = [] ∧ post = [])
  /-- A definition that begins a line is tried exactly if no error before it swallows it. -/
  mem_iff : ∀ d, (Cursor.ofStream stream).Precedes d → d.StartsDefinition → d.BeginsHead →
    (d ∈ ss ↔ ¬∃ s ∈ ss, Swallows s d)
  /-- All errors are reported. -/
  reported : ∀ s ∈ ss, ∀ e rest, Parser.typeDef.run s = .failed e rest →
    ∃ es, ofTokens stream = .error es ∧ e ∈ es

/-- Every definition that begins a line is tried in its turn, and its error reported, unless an
error before it was found at its first word or while its modifiers were read. -/
theorem reading_resumes {stream : TokenStream} (hfinal : stream.final.kind = .eof)
    (hinner : ∀ t ∈ stream.tokens, t.kind ≠ .eof) : ∃ ss, ResumesBehindErrors stream ss := by
  have hwhole : (Cursor.ofStream stream).Whole := ⟨hfinal, hinner⟩
  obtain ⟨ss, hss, hreading⟩ := (readsTo_readFrom hwhole.final).exists_tries
  refine ⟨ss, hss, hreading, ?_, fun d hd hstarts hhead => ⟨fun hmem => ?_, fun hnone => ?_⟩, ?_⟩
  · rintro pre s post e rest rfl hrun
    have hs : s.Whole := hwhole.of_precedes (hss.precedes.1 s (by simp))
    have hbehind := hss.behind_error hrun
    have hrecover : rest.recover.Whole := by
      have hrest := (precedes_of_failed hrun).trans rest.precedes_advance
      exact hs.of_precedes (hrest.trans rest.precedes_recover)
    refine ⟨rest.recover, rest.resumesAt_recover, ?_⟩
    rcases rest.resumesAt_recover.starts with hstarts | hend
    · exact .inl ⟨hstarts, hbehind.head?_eq hrecover hstarts.definition⟩
    · exact .inr ⟨hend, hbehind.eq_nil hrecover.final hend⟩
  · rintro ⟨s, hs, hswallows⟩
    exact hss.not_swallows hs hswallows hstarts.definition hmem
  · exact (hss.mem_or_swallows hwhole hd hstarts hhead).resolve_right hnone
  · intro s hs e rest hrun
    have hmem : e ∈ (readFrom (.ofStream stream)).errors := by
      rw [hreading]
      exact List.mem_filterMap.mpr ⟨s, hs, by rw [errorAt?, hrun]; rfl⟩
    refine ⟨_, ?_, hmem⟩
    rw [ofTokens, if_neg (by simpa using List.ne_nil_of_mem hmem)]

/-- The definitions behind the first two errors are tried, and the second error is reported. -/
theorem reading_resumes_thrice :
    let source := "class A \x7b val = 1 \x7d\nclass B\ntrait T \x7b def \x7d\nobject O"
    let stream := TokenStream.ofText .user source
    stream.final.kind = .eof ∧ (∀ t ∈ stream.tokens, t.kind ≠ .eof) ∧
      (readFrom (.ofStream stream)).errors.map (·.span.start) = [14, 42] ∧
      ∃ ss, ResumesBehindErrors stream ss := by
  intro source stream
  have hfinal := (TokenStream.scannedFrom .user Location.start source.toList).final
  have htokens : ∀ t ∈ stream.tokens, t.kind ≠ .eof := fun t ht => TokenStream.kind_ne_eof ht
  exact ⟨hfinal, htokens, by decide +kernel, reading_resumes hfinal htokens⟩

/-- A definition that begins a line is not tried if the one before it breaks off at its first word.
Its own error is not found. -/
theorem recovery_swallows_definition :
    let source := "class\nclass B \x7b val = 1 \x7d"
    let start := Cursor.ofStream (.ofText .user source)
    ∃ e rest e', Parser.typeDef.run start = .failed e rest ∧ rest.StartsDefinition ∧
      errorAt? rest = some e' ∧ rest.recover.ahead = [] ∧ e' ≠ e ∧
      ofText .user source = .error [e] := by
  intro source start
  have hchecked : ((Parser.typeDef.run start).value?.isNone, (Parser.typeDef.run start).rest?.map
      fun rest => decide (rest.StartsDefinition ∧ rest.recover.ahead = [] ∧
        (errorAt? rest).isSome ∧ errorAt? rest ≠ errorAt? start ∧
        (readFrom start).errors = (errorAt? start).toList)) = (true, some true) := by
    decide +kernel
  cases hrun : Parser.typeDef.run start with
  | done => simp [hrun, Outcome.value?] at hchecked
  | stuck => simp [hrun, Outcome.rest?] at hchecked
  | failed e rest =>
    have herror : errorAt? start = some e := by rw [errorAt?, hrun]; rfl
    simp only [hrun, Outcome.rest?, herror, Option.map_some, Prod.mk.injEq, Option.some.injEq,
      decide_eq_true_eq] at hchecked
    obtain ⟨-, hstarts, hend, hsome, hne, herrors⟩ := hchecked
    obtain ⟨e', he'⟩ := Option.isSome_iff_exists.mp hsome
    refine ⟨e, rest, e', rfl, hstarts, he', hend, ?_, ?_⟩
    · rintro rfl
      exact hne he'
    · change ofTokens (.ofText .user source) = .error [e]
      rw [ofTokens, if_neg (by rw [herrors]; simp)]
      exact congrArg _ herrors

/-! ### Errors -/

/-- Errors stand at tokens, one behind another, so no place is reported twice. -/
theorem errors_advance {file : SourceFile} {text : String} {es : List SyntaxError}
    (h : ofText file text = .error es) :
    (∀ e ∈ es, ∃ t ∈ (TokenStream.ofText file text).toList, e.span = t.span) ∧
      (es.Pairwise fun e f => e.span.start < f.span.start) ∧ (es.map (·.span)).Nodup ∧
      (es.map (·.span)).count (TokenStream.ofText file text).final.span ≤ 1 ∧
      es.length ≤ (TokenStream.ofText file text).toList.length := by
  have hsplits := TokenStream.splits_scanFrom file Location.start text.toList
  have hfinal : (TokenStream.ofText file text).final.kind = .eof :=
    (TokenStream.scannedFrom file Location.start text.toList).final
  have hsublist := sublist_errors_ofTokens hfinal h
  have hadvance : es.Pairwise fun e f => e.span.start < f.span.start := by
    have hspans : ((TokenStream.ofText file text).toList.map (·.span)).Pairwise
        fun s t => s.start < t.start := List.pairwise_map.mpr hsplits.increasing
    have herrors := hspans.sublist hsublist
    rwa [List.pairwise_map] at herrors
  have hnodup : (es.map (·.span)).Nodup := by
    refine List.pairwise_map.mpr (hadvance.imp fun {e f} hlt heq => ?_)
    simp [heq] at hlt
  refine ⟨fun e he => exists_token_of_error h he, hadvance, hnodup, ?_, ?_⟩
  · exact List.nodup_iff_count_le_one.mp hnodup _
  · simpa using hsublist.length_le

/-- Two errors, the second one at the end of the text. -/
theorem errors_advance_to_end :
    let source := "class A \x7b val = 1 \x7d\nclass B("
    let stream := TokenStream.ofText .user source
    ∃ es, ofText .user source = .error es ∧ es.map (·.span.start) = [14, 28] ∧
      (∀ e ∈ es, ∃ t ∈ stream.toList, e.span = t.span) ∧
      (es.Pairwise fun e f => e.span.start < f.span.start) ∧ (es.map (·.span)).Nodup ∧
      (es.map (·.span)).count stream.final.span ≤ 1 ∧ es.length ≤ stream.toList.length := by
  intro source stream
  have hchecked : (readFrom (.ofStream stream)).errors.map (·.span.start) = [14, 28] := by
    decide +kernel
  have herror : ofText .user source = .error (readFrom (.ofStream stream)).errors := by
    change ofTokens stream = _
    rw [ofTokens, if_neg]
    intro hnone
    simp [List.isEmpty_iff.mp hnone] at hchecked
  exact ⟨_, herror, hchecked, errors_advance herror⟩

end Program

end Mixin
