import Mixin.Proofs.Acceptance
import Mixin.Proofs.Grammar.Places
import Mixin.Proofs.Token.Partition
import Mixin.Proofs.Tree.Parts

/-!
# Spans nest as the tree does

Tokens stand one behind another (`Token.InOrder`), and what they spell is laid out where they stand
(`Spelling.Laid`). This passes from the parts of a shape of the grammar to the shape, and so, by
induction over the grammar, to types, expressions and definitions; the parts of a parsed program
therefore nest (`Program.nested_ofText`). With the layout, any property that passes from two spans
to the one that joins them passes to every span of a program (`Program.laid_ofText`).
-/

namespace Mixin

open Mixin.Part (Fits FitAll)

/-! ### Spans that join two others -/

namespace Span

variable {s t : Span}

theorem start_through (h : s.start ≤ t.start) : (s.through t).start = s.start := by
  rw [through, if_neg (by omega)]

theorem stop_through (h : s.stop ≤ t.stop) : (s.through t).stop = t.stop := by
  unfold through
  split
  · exact Nat.max_eq_left h
  · exact Nat.max_eq_right h

theorem file_through {file : SourceFile} (hs : s.file = file) (ht : t.file = file) :
    (s.through t).file = file := by
  unfold through
  split
  · exact ht
  · exact hs

end Span

/-! ### Tokens in order -/

/-- Tokens that stand one behind another between two offsets, none of them empty. Their spans, and
the empty ones behind them, are as they should be. -/
def Token.InOrder (V : Span → Prop) : Nat → Nat → List Token → Prop
  | lo, hi, [] => lo ≤ hi
  | lo, hi, t :: ts =>
    V t.span ∧ V (t.span.after t.lexeme) ∧ lo ≤ t.span.start ∧ t.span.start < t.span.stop ∧
      InOrder V t.span.stop hi ts

namespace Token

variable {V : Span → Prop} {lo hi lo' hi' : Nat} {ts us : List Token}

theorem InOrder.le (h : InOrder V lo hi ts) : lo ≤ hi := by
  induction ts generalizing lo with
  | nil => exact h
  | cons t ts ih =>
    obtain ⟨-, -, hlo, hspan, hts⟩ := h
    have hhi := ih hts
    omega

theorem InOrder.widen (h : InOrder V lo hi ts) (hlo : lo' ≤ lo) (hhi : hi ≤ hi') :
    InOrder V lo' hi' ts := by
  induction ts generalizing lo lo' with
  | nil =>
    have hle : lo ≤ hi := h
    show lo' ≤ hi'
    omega
  | cons t ts ih =>
    obtain ⟨hspan, hafter, hstart, hwidth, hts⟩ := h
    exact ⟨hspan, hafter, hlo.trans hstart, hwidth, ih hts (Nat.le_refl _)⟩

theorem inOrder_append : InOrder V lo hi (ts ++ us) ↔
    ∃ mid, InOrder V lo mid ts ∧ InOrder V mid hi us := by
  induction ts generalizing lo with
  | nil =>
    constructor
    · intro h
      exact ⟨lo, Nat.le_refl lo, h⟩
    · rintro ⟨mid, hmid, h⟩
      exact h.widen hmid (Nat.le_refl _)
  | cons t ts ih =>
    simp only [List.cons_append, InOrder, ih]
    constructor
    · rintro ⟨hspan, hafter, hstart, hwidth, mid, hts, hus⟩
      exact ⟨mid, ⟨hspan, hafter, hstart, hwidth, hts⟩, hus⟩
    · rintro ⟨mid, ⟨hspan, hafter, hstart, hwidth, hts⟩, hus⟩
      exact ⟨hspan, hafter, hstart, hwidth, mid, hts, hus⟩

theorem InOrder.bounds (h : InOrder V lo hi ts) {t : Token} (ht : t ∈ ts) :
    V t.span ∧ lo ≤ t.span.start ∧ t.span.stop ≤ hi := by
  obtain ⟨us, vs, rfl⟩ := List.append_of_mem ht
  obtain ⟨mid, hus, hspan, -, hstart, -, hvs⟩ := inOrder_append.mp h
  exact ⟨hspan, hus.le.trans hstart, hvs.le⟩

end Token

open Token (InOrder inOrder_append)

theorem TokenStream.Splits.inOrder {V : Span → Prop} {file : SourceFile} {loc : Location}
    {input : List Char} {stream : TokenStream} (h : Splits file loc input stream)
    (hvalid : ∀ t ∈ stream.tokens, V t.span ∧ V (t.span.after t.lexeme)) :
    ∃ hi, InOrder V loc.offset hi stream.tokens := by
  induction h with
  | last loc => exact ⟨loc.offset, Nat.le_refl _⟩
  | @next loc gap lexeme rest kind others _ _ htoken _ ih =>
    obtain ⟨hfirst, hothers⟩ := List.forall_mem_cons.mp hvalid
    obtain ⟨hi, hrest⟩ := ih hothers
    refine ⟨hi, hfirst.1, hfirst.2, loc.offset_le_advanceAll gap, ?_, hrest⟩
    show (loc.advanceAll gap).offset < (loc.advanceAll (gap ++ lexeme)).offset
    rw [Location.advanceAll_append]
    exact Location.offset_lt_advanceAll _ htoken.ne_nil

namespace Spelling

variable {V : Span → Prop} {lo hi : Nat} {t : Token} {ts us : List Token}

/-! ### Ends of tokens -/

/-- Where some tokens begin and end. -/
structure Ends (V : Span → Prop) (lo hi : Nat) (ts : List Token) : Prop where
  first : V (firstSpan ts)
  last : V (lastSpan ts)
  behind : V (afterLast ts)
  lower : lo ≤ (firstSpan ts).start
  starts : (firstSpan ts).start ≤ (lastSpan ts).start
  stops : (firstSpan ts).stop ≤ (lastSpan ts).stop
  width : (lastSpan ts).start < (lastSpan ts).stop
  upper : (lastSpan ts).stop ≤ hi
  inOrder : InOrder V (firstSpan ts).start (lastSpan ts).stop ts

theorem lastSpan_cons_cons (t u : Token) (ts : List Token) :
    lastSpan (t :: u :: ts) = lastSpan (u :: ts) := by
  simp [lastSpan]

theorem afterLast_cons_cons (t u : Token) (ts : List Token) :
    afterLast (t :: u :: ts) = afterLast (u :: ts) := by
  simp [afterLast]

theorem firstSpan_append (hne : ts ≠ []) (us : List Token) :
    firstSpan (ts ++ us) = firstSpan ts := by
  cases ts with
  | nil => exact absurd rfl hne
  | cons t ts => rfl

theorem lastSpan_append (ts : List Token) (hne : us ≠ []) :
    lastSpan (ts ++ us) = lastSpan us := by
  simp [lastSpan, List.getLast?_append_of_ne_nil ts hne]

theorem ends_of_inOrder (h : InOrder V lo hi ts) (hne : ts ≠ []) : Ends V lo hi ts := by
  induction ts generalizing lo with
  | nil => exact absurd rfl hne
  | cons t ts ih =>
    obtain ⟨hspan, hafter, hstart, hwidth, hts⟩ := h
    cases ts with
    | nil =>
      exact ⟨hspan, hspan, hafter, hstart, Nat.le_refl _, Nat.le_refl _, hwidth, hts,
        hspan, hafter, Nat.le_refl _, hwidth, Nat.le_refl _⟩
    | cons u us =>
      have hends := ih hts (List.cons_ne_nil _ _)
      have hfirst := hends.lower
      have hstarts := hends.starts
      have hlast := hends.width
      have hshared := lastSpan_cons_cons t u us
      refine ⟨hspan, hshared ▸ hends.last, afterLast_cons_cons t u us ▸ hends.behind, hstart, ?_,
        ?_, hshared ▸ hlast, hshared ▸ hends.upper, ?_⟩
      all_goals rw [hshared, firstSpan_cons]
      · omega
      · omega
      · exact ⟨hspan, hafter, Nat.le_refl _, hwidth,
          hends.inOrder.widen hends.lower (Nat.le_refl _)⟩

theorem afterLast_offsets (hne : ts ≠ []) :
    (afterLast ts).start = (lastSpan ts).stop ∧ (afterLast ts).stop = (lastSpan ts).stop := by
  rw [afterLast, lastSpan, List.getLast?_eq_getLast_of_ne_nil hne]
  exact ⟨rfl, rfl⟩

/-! ### Parts where tokens stand -/

/-- Wherever the tokens stand, there is room for the parts. -/
def Laid (V : Span → Prop) (ts : List Token) (ps : List Part) : Prop :=
  ∀ lo hi, InOrder V lo hi ts → FitAll V lo hi ps

variable {p : Part} {ps qs : List Part}

theorem Laid.nil : Laid V ts [] := fun _ _ hts => hts.le

theorem Laid.cons (h : Laid V ts ps) : Laid V (t :: ts) ps := by
  rintro lo hi ⟨-, -, hstart, hwidth, hts⟩
  exact (h _ _ hts).widen (by omega) (Nat.le_refl _)

theorem Laid.append (hps : Laid V ts ps) (hqs : Laid V us qs) : Laid V (ts ++ us) (ps ++ qs) := by
  intro lo hi htokens
  obtain ⟨mid, hts, hus⟩ := inOrder_append.mp htokens
  exact (hps _ _ hts).append (Nat.le_refl _) (hqs _ _ hus)

theorem Laid.left (h : Laid V ts ps) (us : List Token) : Laid V (ts ++ us) ps := by
  rw [← List.append_nil ps]
  exact h.append .nil

theorem Laid.right (ts : List Token) (h : Laid V us ps) : Laid V (ts ++ us) ps :=
  Laid.append .nil h

/-- Whatever `R` spells, its parts are laid out where the tokens stand. -/
def Lays {α : Type} (V : Span → Prop) (R : Spelling α) (f : α → List Part) : Prop :=
  ∀ ts a, R ts a → Laid V ts (f a)

section Shapes

variable {α : Type} {R : Spelling α} {f : α → List Part} {g : α → Part} {left right : TokenKind}

theorem Lays.headed {kind : TokenKind} (hR : Lays V R f) : Lays V (Headed kind R) f := by
  intro ts a h
  cases h with
  | intro ht ha => exact (hR _ _ ha).cons

theorem Lays.behind {kind : TokenKind} (hR : Lays V R fun a => [g a]) :
    Lays V (Behind kind R) fun o => o.toList.map g := by
  intro ts o h
  cases h with
  | absent => exact .nil
  | present h => exact hR.headed _ _ h

theorem Lays.between (hR : Lays V R f) : Lays V (Between left right R) f := by
  intro ts a h
  cases h with
  | intro hl ha hr => exact ((hR _ _ ha).left _).cons

theorem Lays.omissible {R : Spelling (List α)} (hR : Lays V R (List.flatMap f)) :
    Lays V (Omissible R) (List.flatMap f) := by
  intro ts as h
  cases h with
  | absent => exact .nil
  | present h => exact hR _ _ h

theorem Lays.listed (hR : Lays V R f) : Lays V (Listed R) (List.flatMap f) := by
  intro ts as h
  induction h with
  | one ha =>
    rw [List.flatMap_singleton]
    exact hR _ _ ha
  | more ha ht has ih => exact (hR _ _ ha).append ih.cons

theorem Lays.chained (hR : Lays V R f) : Lays V (Chained R) (List.flatMap f) := by
  intro ts as h
  induction h with
  | nil => exact .nil
  | cons ha has ih => exact (hR _ _ ha).append ih

theorem Lays.closed (hR : Lays V R f) : Lays V (Closed R) (List.flatMap f) := by
  intro ts as h
  induction h with
  | nil hss hr => exact .nil
  | cons hss ha has ih => exact ((hR _ _ ha).append ih).right _

theorem Lays.map {S : Spelling (List α)} (h : Lays V S (List.flatMap fun a => [g a])) :
    Lays V S (List.map g) := by
  intro ts as has
  rw [← List.flatMap_pure_eq_map]
  exact h ts as has

theorem Lays.enclosed (hR : Lays V R fun a => [g a]) : Lays V (Enclosed R) (List.map g) :=
  Lays.map hR.listed.omissible.between

theorem Lays.omissibleEnclosed (hR : Lays V R fun a => [g a]) :
    Lays V (Omissible (Enclosed R)) (List.map g) :=
  Lays.map hR.listed.omissible.between.omissible

theorem Lays.bracketed (hR : Lays V R fun a => [g a]) : Lays V (Bracketed R) (List.map g) :=
  Lays.map hR.listed.between.omissible

theorem Lays.braced (hR : Lays V R fun a => [g a]) : Lays V (Braced R) (List.map g) :=
  Lays.map hR.closed.headed

end Shapes

/-! ### Nodes -/

variable {kind : PartKind} {marks : List Span} {s : Span}

theorem fitAll_node (h : FitAll V lo hi [p]) (hkind : p.kind.IsSolid) :
    V p.span ∧ lo ≤ p.span.start ∧ p.span.start < p.span.stop ∧ p.span.stop ≤ hi ∧
      FitAll V p.span.start p.span.stop [p] := by
  rw [Part.fitAll_singleton] at h
  obtain ⟨hsound, hlo, hhi, -⟩ := Part.fits_iff.mp h
  have hwidth := (hsound.width.resolve_left fun hempty => hkind.2 hempty.2).1
  exact ⟨hsound.valid, hlo, hwidth, hhi, Part.fitAll_singleton.mpr (h.tight hkind.1)⟩

theorem laid_token (hkind : kind.IsSolid) (hmarks : ∀ m ∈ marks, m = t.span) :
    Laid V [t] [.mk kind t.span marks []] := by
  rintro lo hi ⟨hspan, -, hstart, hwidth, hhi⟩
  rw [Part.fitAll_singleton, Part.fits_iff]
  refine ⟨⟨hspan, fun m hm => ?_, .inr ⟨hwidth, hkind.2⟩⟩, hstart, hhi, ?_⟩
  · rw [hmarks m hm]
    exact ⟨hspan, Nat.le_refl _, Nat.le_refl _⟩
  · have hlimit : Part.limit hi (.mk kind t.span marks []) = t.span.stop := if_pos hkind.1
    rw [hlimit]
    exact Nat.le_of_lt hwidth

theorem Laid.placeholder (h : Laid V ts ps) (hne : ts ≠ []) :
    Laid V ts (ps ++ [.mk .placeholder (afterLast ts) [] []]) := by
  intro lo hi hts
  have hends := ends_of_inOrder hts hne
  obtain ⟨hstart, hstop⟩ := afterLast_offsets hne
  have hparts := (h _ _ hends.inOrder).widen hends.lower (Nat.le_refl _)
  refine hparts.append (Nat.le_refl _) (Part.fitAll_singleton.mpr (Part.fits_iff.mpr ?_))
  refine ⟨⟨hends.behind, by simp [Part.marks], .inl ⟨hstart.trans hstop.symm, rfl⟩⟩,
    Nat.le_of_eq hstart.symm, hstop.le.trans hends.upper, ?_⟩
  show (afterLast ts).start ≤ (afterLast ts).stop
  omega

theorem laid_leaf {e : Expr} (h : e.toPart = .mk .expression t.span [] []) :
    Laid V [t] [e.toPart] := by
  rw [h]
  exact laid_token (by decide) (by simp)

theorem toPart_of_literal {e : Expr} (h : Literal.expr? t = some e) :
    e.toPart = .mk .expression t.span [] [] := by
  unfold Literal.expr? at h
  split at h
  · obtain ⟨value, -, rfl⟩ := Option.map_eq_some_iff.mp h
    rfl
  · cases h
    rfl
  · obtain ⟨value, -, rfl⟩ := Option.map_eq_some_iff.mp h
    rfl
  · obtain ⟨value, -, rfl⟩ := Option.map_eq_some_iff.mp h
    rfl
  · cases h

theorem toPart_of_constant {e : Expr} (h : t.constant? = some e) :
    e.toPart = .mk .expression t.span [] [] := by
  unfold Token.constant? at h
  split at h <;> cases h <;> rfl

theorem OfModifiers.exists_mark {hs : List Token} {ms : ModifierList} {name : Ident}
    (h : OfModifiers hs ms) (hsub : ∀ t ∈ hs, t ∈ ts) (hname : ∃ t ∈ ts, name.span = t.span) :
    ∀ m ∈ ms.spans ++ [name.span], ∃ t ∈ ts, m = t.span := by
  intro m hm
  rcases List.mem_append.mp hm with hm | hm
  · obtain ⟨w, hw, rfl⟩ := List.mem_map.mp hm
    obtain ⟨t, ht, hspan⟩ := h.exists_token hw
    exact ⟨t, hsub t ht, hspan⟩
  · rw [List.mem_singleton.mp hm]
    exact hname

theorem OfNamed.exists_name {R : Spelling TypeExpr} {n : NamedType} (h : OfNamed R ts n)
    (hts : InOrder V lo hi ts) :
    n.span.start = (firstSpan ts).start ∧ ∃ t ∈ ts, n.name.span = t.span := by
  cases h with
  | @intro t us as ht has =>
    refine ⟨Span.start_through (ends_of_inOrder hts (by simp)).starts, t, by simp, rfl⟩

section Joined

variable (hV : ∀ s t, V s → V t → V (s.through t))
include hV

/-- A part whose span joins two others fits if these do and if the parts it consists of fit between
them. -/
theorem fits_through {t : Span} (hs : V s) (ht : V t) (hlo : lo ≤ s.start)
    (hstarts : s.start ≤ t.start) (hstops : s.stop ≤ t.stop) (hwidth : s.start < t.stop)
    (hhi : t.stop ≤ hi) (hkind : kind.IsSolid)
    (hmarks : ∀ m ∈ marks, V m ∧ s.start ≤ m.start ∧ m.stop ≤ t.stop)
    (hparts : FitAll V s.start t.stop ps) : FitAll V lo hi [.mk kind (s.through t) marks ps] := by
  have hstart := Span.start_through hstarts
  have hstop := Span.stop_through hstops
  have hlimit : Part.limit hi (.mk kind (s.through t) marks ps) = t.stop :=
    (if_pos hkind.1).trans hstop
  rw [Part.fitAll_singleton, Fits, hlimit, hstart, hstop]
  refine ⟨⟨hV s t hs ht, ?_, .inr ⟨?_, hkind.2⟩⟩, hlo, hhi, hparts⟩
  · show ∀ m ∈ marks, V m ∧ (s.through t).start ≤ m.start ∧ m.stop ≤ (s.through t).stop
    rwa [hstart, hstop]
  · show (s.through t).start < (s.through t).stop
    rwa [hstart, hstop]

theorem laid_extent (hparts : Laid V ts ps) (hne : ts ≠ []) (hkind : kind.IsSolid)
    (hmarks : ∀ m ∈ marks, ∃ t ∈ ts, m = t.span) :
    Laid V ts [.mk kind (extent ts) marks ps] := by
  intro lo hi hts
  have hends := ends_of_inOrder hts hne
  have hstarts := hends.starts
  have hwidth := hends.width
  refine fits_through hV hends.first hends.last hends.lower hstarts hends.stops (by omega)
    hends.upper hkind ?_ (hparts _ _ hends.inOrder)
  intro m hm
  obtain ⟨t, ht, rfl⟩ := hmarks m hm
  exact hends.inOrder.bounds ht

theorem laid_until (hparts : Laid V ts ps) (hne : ts ≠ []) (hkind : kind.IsSolid)
    (hmarks : ∀ m ∈ marks, ∃ t ∈ ts, m = t.span) (hlast : Laid V us [p]) (hp : p.kind.IsSolid)
    (hs : p.span = s) :
    Laid V (ts ++ us) [.mk kind ((firstSpan ts).through s) marks (ps ++ [p])] := by
  intro lo hi htokens
  subst hs
  obtain ⟨mid, hts, hus⟩ := inOrder_append.mp htokens
  have hends := ends_of_inOrder hts hne
  obtain ⟨hvalid, hstart, hwidth, hstop, htight⟩ := fitAll_node (hlast _ _ hus) hp
  have hstarts := hends.starts
  have hstops := hends.stops
  have hlastWidth := hends.width
  have hupper := hends.upper
  refine fits_through hV hends.first hvalid hends.lower (by omega) (by omega) (by omega) hstop
    hkind ?_ ((hparts _ _ hends.inOrder).append (by omega) htight)
  intro m hm
  obtain ⟨t, ht, rfl⟩ := hmarks m hm
  obtain ⟨hmark, hmarkStart, hmarkStop⟩ := hends.inOrder.bounds ht
  exact ⟨hmark, hmarkStart, by omega⟩

theorem laid_from (hfirst : Laid V ts [p]) (hp : p.kind.IsSolid) (hs : p.span = s)
    (hparts : Laid V us ps) (hne : us ≠ []) (hkind : kind.IsSolid)
    (hmarks : ∀ m ∈ marks, ∃ t ∈ us, m = t.span) :
    Laid V (ts ++ us) [.mk kind (s.through (lastSpan us)) marks (p :: ps)] := by
  intro lo hi htokens
  subst hs
  obtain ⟨mid, hts, hus⟩ := inOrder_append.mp htokens
  have hends := ends_of_inOrder hus hne
  obtain ⟨hvalid, hstart, hwidth, hstop, htight⟩ := fitAll_node (hfirst _ _ hts) hp
  have hstarts := hends.starts
  have hstops := hends.stops
  have hlastWidth := hends.width
  have hlower := hends.lower
  refine fits_through hV hvalid hends.last hstart (by omega) (by omega) (by omega) hends.upper
    hkind ?_ (htight.append (by omega) (hparts _ _ hends.inOrder))
  intro m hm
  obtain ⟨t, ht, rfl⟩ := hmarks m hm
  obtain ⟨hmark, hmarkStart, hmarkStop⟩ := hends.inOrder.bounds ht
  exact ⟨hmark, by omega, hmarkStop⟩

theorem laid_head (hparts : Laid V (ts ++ us) ps) (hne : ts ≠ [])
    (hkind : kind.encloses = false ∧ kind ≠ .placeholder)
    (hmarks : ∀ m ∈ marks, ∃ t ∈ ts, m = t.span) :
    Laid V (ts ++ us) [.mk kind (extent ts) marks ps] := by
  intro lo hi htokens
  obtain ⟨mid, hts, hus⟩ := inOrder_append.mp htokens
  have hends := ends_of_inOrder hts hne
  have hstarts := hends.starts
  have hwidth := hends.width
  have hupper := hends.upper
  have hhi := hus.le
  have hstart : (extent ts).start = _ := Span.start_through hstarts
  have hstop : (extent ts).stop = _ := Span.stop_through hends.stops
  have hlimit : Part.limit hi (.mk kind (extent ts) marks ps) = hi := by
    rw [Part.limit, Part.kind, hkind.1]
    rfl
  have htight : InOrder V (firstSpan ts).start hi (ts ++ us) :=
    inOrder_append.mpr ⟨_, hends.inOrder, hus.widen hupper (Nat.le_refl _)⟩
  rw [Part.fitAll_singleton, Fits, hlimit, hstart, hstop]
  refine ⟨⟨hV _ _ hends.first hends.last, fun m hm => ?_, .inr ⟨?_, hkind.2⟩⟩, hends.lower,
    by omega, hparts _ _ htight⟩
  · obtain ⟨t, ht, rfl⟩ := hmarks m hm
    show _ ∧ (extent ts).start ≤ _ ∧ _ ≤ (extent ts).stop
    rw [hstart, hstop]
    exact hends.inOrder.bounds ht
  · show (extent ts).start < (extent ts).stop
    omega

/-! ### Types -/

theorem lays_named {R : Spelling TypeExpr} (hR : Lays V R fun type => [type.toPart]) :
    Lays V (OfNamed R) fun n => [n.toPart] := by
  intro ts n h
  cases h with
  | @intro t us as ht has =>
    refine laid_extent hV ?_ (by simp) (by decide) (by simp [Token.ident])
    rw [TypeExpr.toParts_eq_map]
    exact (hR.bracketed _ _ has).cons

theorem laid_arrow (hparts : Laid V ts ps) (hne : ts ≠ []) (hkind : kind.IsSolid)
    (hlast : Laid V us [p]) (hp : p.kind.IsSolid) (hs : p.span = s) :
    Laid V (ts ++ t :: us) [.mk kind ((firstSpan ts).through s) [] (ps ++ [p])] := by
  have h : Laid V ((ts ++ [t]) ++ us)
      [.mk kind ((firstSpan (ts ++ [t])).through s) [] (ps ++ [p])] :=
    laid_until hV (hparts.left [t]) (by simp) hkind (by simp) hlast hp hs
  rwa [firstSpan_append hne, List.append_assoc] at h

theorem lays_type : Lays V OfType fun type => [type.toPart] := by
  intro ts type h
  induction h with
  | named hR hn ihR => exact lays_named hV ihR _ _ hn
  | arrow hR hn ht hr ihR ih =>
    exact laid_arrow hV (lays_named hV ihR _ _ hn) hn.ne_nil (by decide) ih
      (TypeExpr.isSolid_toPart _) (TypeExpr.span_toPart _)
  | @function R ts as t us r hR has ht hr ihR ih =>
    have hparts : Laid V ts (TypeExpr.toParts as) := by
      rw [TypeExpr.toParts_eq_map]
      exact Lays.enclosed ihR _ _ has
    exact laid_arrow hV hparts has.ne_nil (by decide) ih
      (TypeExpr.isSolid_toPart _) (TypeExpr.span_toPart _)
  | group hR has ihR => exact Lays.enclosed ihR _ _ has
  | tuple hR has hlength ihR =>
    refine laid_extent hV ?_ has.ne_nil (by decide) (by simp)
    rw [TypeExpr.toParts_eq_map]
    exact Lays.enclosed ihR _ _ has

/-! ### Expressions -/

theorem lays_binder : Lays V OfBinder fun b => [b.toPart] := by
  intro ts b h
  cases h with
  | @intro t us type ht htype =>
    exact laid_extent hV ((lays_type hV).behind _ _ htype).cons (by simp) (by decide)
      (by simp [Token.ident])

theorem lays_binders : Lays V OfBinders (List.map Binder.toPart) := by
  intro ts bs h
  cases h with
  | single hb => exact lays_binder hV _ _ hb
  | several hbs => exact (lays_binder hV).enclosed _ _ hbs

theorem lays_stmt {R : Spelling Expr} (hR : Lays V R fun e => [e.toPart]) :
    Lays V (OfStmt R) fun s => [s.toPart] := by
  intro ts s h
  cases h with
  | @define w b t us type q vs e hw ht htype hq he =>
    have htype' : Laid V (w :: t :: (us ++ [q])) (type.toList.map TypeExpr.toPart) :=
      (((lays_type hV).behind _ _ htype).left [q]).cons.cons
    have h := laid_until hV htype' (by simp) (by decide : PartKind.statement.IsSolid)
      (by simp [Token.ident] : ∀ m ∈ [t.ident.span], ∃ u ∈ w :: t :: (us ++ [q]), m = u.span)
      (hR _ _ he) e.isSolid_toPart e.span_toPart
    rw [List.cons_append, List.cons_append, List.append_assoc] at h
    exact h
  | eval he => exact hR _ _ he

theorem laid_binary {a b : Expr} (ha : Laid V ts [a.toPart]) (hb : Laid V us [b.toPart]) :
    Laid V (ts ++ t :: us) [(Expr.binary t.ident a b (a.span.through b.span)).toPart] := by
  intro lo hi htokens
  obtain ⟨mid, hts, hspan, -, hstart, hwidth, hus⟩ := inOrder_append.mp htokens
  obtain ⟨hvalid, hleft, hleftWidth, hleftStop, hleftTight⟩ :=
    fitAll_node (ha _ _ hts) a.isSolid_toPart
  obtain ⟨hvalid', hright, hrightWidth, hrightStop, hrightTight⟩ :=
    fitAll_node (hb _ _ hus) b.isSolid_toPart
  rw [Expr.span_toPart] at *
  have hmarks : ∀ m ∈ [t.ident.span], V m ∧ a.span.start ≤ m.start ∧ m.stop ≤ b.span.stop := by
    intro m hm
    rw [List.mem_singleton.mp hm]
    exact ⟨hspan, by show _ ≤ t.span.start; omega, by show t.span.stop ≤ _; omega⟩
  exact fits_through hV hvalid hvalid' hleft (by omega) (by omega) (by omega) hrightStop
    (by decide) hmarks (hleftTight.append (by omega) hrightTight)

theorem lays_expr : Lays V OfExpr fun e => [e.toPart] := by
  intro ts e h
  induction h with
  | literal h => exact laid_leaf (toPart_of_literal h)
  | constant h => exact laid_leaf (toPart_of_constant h)
  | reference ht => exact laid_token (by decide) (by simp [Token.ident])
  | @unit l r hl hr =>
    have hnone : Laid V [l, r] [] := .nil
    exact laid_extent hV hnone (by simp) (by decide) (by simp)
  | group hl he hr ih => exact (ih.left _).cons
  | block hR hss ihR =>
    refine laid_extent hV ?_ hss.ne_nil (by decide) (by simp)
    rw [Stmt.toParts_eq_map]
    exact (lays_stmt hV ihR).braced _ _ hss
  | create hR hw hn has ihR =>
    refine laid_extent hV ?_ (by simp) (by decide) (by simp)
    rw [Expr.toParts_eq_map]
    exact ((lays_named hV (lays_type hV) _ _ hn).append
      (Lays.omissibleEnclosed ihR _ _ has)).cons
  | @select ts e d t he hd ht ih =>
    exact laid_from hV ih e.isSolid_toPart e.span_toPart .nil (by simp) (by decide)
      (by simp [Token.ident])
  | @call R ts e us as he hR has ih ihR =>
    refine laid_from hV ih e.isSolid_toPart e.span_toPart ?_ has.ne_nil (by decide) (by simp)
    rw [Expr.toParts_eq_map]
    exact Lays.enclosed ihR _ _ has
  | @unary t ts e ht hlexeme he ih =>
    have hnone : Laid V [t] [] := .nil
    exact laid_until hV hnone (by simp) (by decide) (by simp [Token.ident]) ih e.isSolid_toPart
      e.span_toPart
  | binary ha ht hb iha ihb => exact laid_binary hV iha ihb
  | @assign ts a t us b ha ht hb iha ihb =>
    exact laid_arrow hV iha ha.ne_nil (by decide) ihb b.isSolid_toPart b.span_toPart
  | ifThen hw hl ha hr hb iha ihb =>
    exact laid_extent hV (iha.append ihb.cons).cons.cons (by simp) (by decide) (by simp)
  | ifElse hw hl ha hr hb ht hd iha ihb ihd =>
    exact laid_extent hV (iha.append (ihb.append ihd.cons).cons).cons.cons (by simp) (by decide)
      (by simp)
  | @loop w ts a us b hw l r hl ha hr hb iha ihb =>
    have h := laid_until hV (iha.left [r]).cons.cons (by simp)
      (by decide : PartKind.expression.IsSolid)
      (by simp : ∀ m ∈ [], ∃ u ∈ w :: l :: (ts ++ [r]), m = u.span) ihb b.isSolid_toPart
      b.span_toPart
    rw [List.cons_append, List.cons_append, List.append_assoc] at h
    exact h
  | @closure ts bs t us e hbs ht he ih =>
    exact laid_arrow hV (lays_binders hV _ _ hbs) hbs.ne_nil (by decide) ih e.isSolid_toPart
      e.span_toPart

/-! ### Definitions -/

theorem lays_typeParameter : Lays V OfTypeParameter fun p => [p.toPart] := by
  intro ts p h
  cases h with
  | @intro us v t vs bound hv ht hbound =>
    exact laid_extent hV (((lays_type hV).behind _ _ hbound).cons.right us) (by simp) (by decide)
      (List.forall_mem_singleton.mpr ⟨t, by simp, rfl⟩)

theorem lays_parameter (rejected : ModifierSet) (B : Spelling (Option Binding)) :
    Lays V (OfParameter rejected B) fun p => [p.toPart] := by
  intro ts p h
  cases h with
  | @intro hs ms bs b t k us type vs default hms hadmitted hb ht hk htype hdefault =>
    have hparts := (lays_type hV _ _ htype).append ((lays_expr hV).behind _ _ hdefault)
    refine laid_extent hV ((hparts.cons.cons.right bs).right hs) (by simp) (by decide) ?_
    exact hms.exists_mark (by simp +contextual) ⟨t, by simp, rfl⟩

theorem lays_classParameters (isCase : Bool) (kind : TypeKind) :
    Lays V (OfClassParameters isCase kind) (List.map Parameter.toPart) := by
  intro ts ps h
  cases h with
  | absent => exact .nil
  | present hps => exact (lays_parameter hV _ _).enclosed _ _ hps

theorem lays_parent : Lays V OfParent fun p => [p.toPart] := by
  intro ts p h
  cases h with
  | @intro us n vs as hn has =>
    intro lo hi htokens
    have htype := lays_named hV (lays_type hV) _ _ hn
    have hparts := htype.append ((lays_expr hV).omissibleEnclosed _ _ has)
    have hends := ends_of_inOrder htokens (by simp [hn.ne_nil])
    obtain ⟨mid, hus, hvs⟩ := inOrder_append.mp hends.inOrder
    have hnode := fitAll_node (htype _ _ hus) (TypeExpr.isSolid_toPart _)
    rw [NamedType.span_toPart] at hnode
    obtain ⟨hvalid, hstart, hwidth, hstop, -⟩ := hnode
    have hmid := hvs.le
    -- The span of the type begins with its first token, which is that of the parent.
    obtain ⟨hfirst, t, ht, hname⟩ := hn.exists_name hus
    rw [← firstSpan_append hn.ne_nil vs] at hfirst
    have hlower := hends.lower
    have hstarts := hends.starts
    have hmarks : ∀ m ∈ [n.name.span], V m ∧ n.span.start ≤ m.start ∧
        m.stop ≤ (lastSpan (us ++ vs)).stop := by
      obtain ⟨hmark, hmarkStart, hmarkStop⟩ := hus.bounds ht
      rw [List.forall_mem_singleton, hname, hfirst]
      exact ⟨hmark, hmarkStart, by omega⟩
    refine fits_through hV hvalid hends.last (by omega) (by omega) (by omega) (by omega) hends.upper
      (by decide) hmarks ?_
    rw [hfirst]
    exact hparts _ _ hends.inOrder

theorem lays_parents : Lays V OfParents (List.map Parent.toPart) := by
  intro ts ps h
  cases h with
  | none => exact .nil
  | some hp hps =>
    exact ((lays_parent hV).headed _ _ hp).append ((lays_parent hV).headed.chained.map _ _ hps)

theorem lays_field : Lays V OfField fun f => [f.toPart] := by
  intro ts f h
  cases h with
  | @intro hs ms w b t us type vs init hms hadmitted hlazy hw ht htype hinit =>
    refine laid_extent hV ?_ (by simp) (by decide)
      (hms.exists_mark (by simp +contextual) ⟨t, by simp, rfl⟩)
    have htype := (lays_type hV).behind _ _ htype
    cases hinit with
    | given he =>
      exact (htype.append ((lays_expr hV).headed _ _ he)).cons.cons.right hs
    | omitted =>
      rw [List.append_nil]
      exact (htype.cons.cons.right hs).placeholder (by simp)

theorem lays_body : Lays V OfBody fun body => body.toList.map Expr.toPart := by
  intro ts body h
  cases h with
  | absent => exact .nil
  | value he => exact (lays_expr hV).headed _ _ he
  | block hss =>
    refine laid_extent hV ?_ hss.ne_nil (by decide) (by simp)
    rw [Stmt.toParts_eq_map]
    exact (lays_stmt hV (lays_expr hV)).braced _ _ hss

theorem lays_method : Lays V OfMethod fun m => [m.toPart] := by
  intro ts m h
  cases h with
  | @intro hs ms w t ts tps us cs vs result bs body hms hadmitted hlazy hw ht htps hcs hresult
      hbody =>
    have hclauses : Laid V us (cs.flatten.map Parameter.toPart) := by
      rw [List.map_flatten, ← List.flatMap_def]
      exact (lays_parameter hV _ _).enclosed.chained _ _ hcs
    have hparts := ((lays_typeParameter hV).bracketed _ _ htps).append (hclauses.append
      (((lays_type hV).behind _ _ hresult).append (lays_body hV _ _ hbody)))
    have hsplit : hs ++ w :: t :: (ts ++ (us ++ (vs ++ bs))) =
        (hs ++ w :: t :: (ts ++ (us ++ vs))) ++ bs := by simp
    rw [hsplit]
    refine laid_head hV ?_ (by simp) (by decide)
      (hms.exists_mark (by simp +contextual) ⟨t, by simp, rfl⟩)
    rw [← hsplit]
    exact hparts.cons.cons.right hs

theorem lays_member : Lays V OfMember fun m => [m.toPart] := by
  intro ts m h
  cases h with
  | field hf => exact lays_field hV _ _ hf
  | method hm => exact lays_method hV _ _ hm

theorem lays_typeDef : Lays V OfTypeDef fun d => [d.toPart] := by
  intro ts d h
  cases h with
  | @intro hs ms w kind t ts tps us ps vs parents bs members hms hw hadmitted ht htps hps hparents
      hmembers =>
    have hbody := ((lays_member hV).closed.headed.omissible.map _ _ hmembers)
    have hparts := ((lays_typeParameter hV).bracketed _ _ htps).append
      ((lays_classParameters hV _ _ _ _ hps).append ((lays_parents hV _ _ hparents).append hbody))
    have hsplit : hs ++ w :: t :: (ts ++ (us ++ (vs ++ bs))) =
        (hs ++ [w, t]) ++ (ts ++ (us ++ (vs ++ bs))) := by simp
    have hhead : (firstSpan (hs ++ [w])).through t.span = extent (hs ++ [w, t]) := by
      have hne : hs ++ [w] ≠ [] := by simp
      rw [extent, lastSpan_append hs (by simp), ← firstSpan_append hne [t]]
      simp [lastSpan]
    rw [hsplit, hhead]
    refine laid_head hV ?_ (by simp) (by decide)
      (hms.exists_mark (by simp +contextual) ⟨t, by simp, rfl⟩)
    rw [← hsplit]
    exact hparts.cons.cons.right hs

theorem lays_definitions : Lays V OfDefinitions (List.map TypeDef.toPart) := by
  intro ts ds h
  induction h with
  | nil hss => exact .nil
  | cons hss hd hds ih => exact ((lays_typeDef hV _ _ hd).append ih).right _

end Joined

end Spelling

/-! ### Programs -/

/-- The parts of a parsed program are laid out one behind another, and all their spans have the
properties that those of the tokens have. -/
theorem Program.laid_ofText {V : Span → Prop} (hV : ∀ s t, V s → V t → V (s.through t))
    {file : SourceFile} {text : String} (hvalid : ∀ t ∈ (TokenStream.ofText file text).tokens,
      V t.span ∧ V (t.span.after t.lexeme)) {p : Program} (h : ofText file text = .ok p) :
    ∃ hi, FitAll V 0 hi p.toParts := by
  obtain ⟨ts, rest, htokens, hspells⟩ := spelled_ofText h
  obtain ⟨hi, hinOrder⟩ := (TokenStream.splits_scanFrom file Location.start text.toList).inOrder
    hvalid
  have hsplit : InOrder V 0 hi (ts ++ rest) := htokens ▸ hinOrder
  exact ⟨hi, (Spelling.lays_definitions hV _ _ hspells).left rest 0 hi hsplit⟩

/-- The spans of a parsed program nest as its parts do. -/
theorem Program.nested_ofText {file : SourceFile} {text : String} {p : Program}
    (h : ofText file text = .ok p) : Part.Nested p.toParts := by
  have hscanned := TokenStream.scannedFrom file Location.start text.toList
  obtain ⟨hi, hlaid⟩ := laid_ofText (V := fun s => s.file = file) (fun _ _ => Span.file_through)
    (fun t ht => ⟨hscanned.file t ht, hscanned.file t ht⟩) h
  exact hlaid.nested fun s t hs ht => hs.trans ht.symm

/-- Parentheses and a value that is left out, within a closure within a class with parents. -/
theorem Program.nested_closure :
    let source := "class A(val x: Int) extends B[T]((x)) \x7b\n  var y: T\n" ++
      "  def f(z: T) = (a: T) => (-(z).g(a) + (1)) * x\n\x7d"
    ∃ p, ofText .user source = .ok p ∧ Part.Nested p.toParts := by
  intro source
  have hok : (ofText .user source).toBool = true := by decide +kernel
  obtain ⟨p, hp⟩ := exists_program_of_toBool hok
  exact ⟨p, hp, nested_ofText hp⟩

end Mixin
