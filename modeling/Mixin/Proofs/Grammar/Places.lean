import Mixin.Proofs.Grammar.Reading
import Mixin.Proofs.Grammar.Sites

/-!
# Where definitions and fields stand

A parsed program is spelled by tokens of its text (`Program.spelled_ofText`). So its definitions
follow the grammar and stand in the file of the text, and its types, their methods, and their
parameters and fields begin with different tokens. In texts of different files no two of them have
the same span (`nodup_signatures`, `nodup_methodSignatures`, `nodup_fieldSpans`), and a registry,
which knows definitions by these spans, never takes one for another.
-/

namespace Mixin

namespace Spelling

/-! ### Definitions -/

theorem OfDefinitions.exists_typeDef {ts : List Token} {ds : List TypeDef}
    (h : OfDefinitions ts ds) : ∀ d ∈ ds, ∃ us, us.Sublist ts ∧ OfTypeDef us d := by
  induction h with
  | nil => simp
  | @cons ss ts e us ds hss he hds ih =>
    intro d hmem
    rcases List.mem_cons.mp hmem with rfl | hmem
    · exact ⟨ts, (List.sublist_append_left ..).trans (List.sublist_append_right ..), he⟩
    · obtain ⟨vs, hvs, hd⟩ := ih d hmem
      exact ⟨vs, hvs.trans ((List.sublist_append_right ..).trans (List.sublist_append_right ..)),
        hd⟩

theorem OfTypeDef.exists_name {ts : List Token} {d : TypeDef} (h : OfTypeDef ts d) :
    ∃ t ∈ ts, t.kind = .identifier ∧ d.name = t.ident := by
  cases h with
  | @intro hs ms w kind t ts tps us ps vs parents bs members hms hw hadmitted ht =>
    exact ⟨t, by simp, ht, rfl⟩

theorem OfTypeDef.abstract_of_object {ts : List Token} {d : TypeDef} (h : OfTypeDef ts d)
    (hobject : d.kind = .object) : d.modifiers.contains .abstract = false := by
  cases h with
  | @intro hs ms w kind t ts tps us ps vs parents bs members hms hw hadmitted =>
    have hnone := List.find?_eq_none.mp (hadmitted.2.2 hobject)
    rw [ModifierList.contains, ModifierList.set, ModifierSet.contains_ofList, ← Bool.not_eq_true,
      List.contains_iff_mem, List.mem_map]
    rintro ⟨w, hw, hmodifier⟩
    exact hnone w hw (by rw [hmodifier]; decide)

/-! ### Places of items -/

variable {α : Type}

/-- Whatever `R` spells, the places that `sites` names of it are beginnings of different tokens
among those that spell it, in their order. -/
def Places (R : Spelling α) (sites : α → List (SourceFile × Nat)) : Prop :=
  ∀ ⦃ts a⦄, Token.Increasing ts → R ts a → (sites a).Sublist (Cursor.origins ts)

theorem origin_through {ts : List Token} (hts : Token.Increasing ts) {t : Token} (ht : t ∈ ts) :
    [((firstSpan ts).through t.span).origin].Sublist (Cursor.origins ts) := by
  obtain ⟨first, us, rfl⟩ := List.exists_cons_of_ne_nil (List.ne_nil_of_mem ht)
  have hlast : ¬ t.span.start < (firstSpan (first :: us)).start := by
    rw [firstSpan_cons]
    rcases List.mem_cons.mp ht with rfl | ht
    · exact Nat.lt_irrefl _
    · exact Nat.not_lt.mpr (Nat.le_of_lt ((List.pairwise_cons.mp hts).1 _ ht))
  rw [Span.origin_through hlast, firstSpan_cons]
  exact (List.nil_sublist _).cons_cons _

theorem origin_extent {ts : List Token} (hts : Token.Increasing ts) (hne : ts ≠ []) :
    [(extent ts).origin].Sublist (Cursor.origins ts) := by
  have hlast : lastSpan ts = (ts.getLast hne).span := by
    rw [lastSpan, List.getLast?_eq_getLast_of_ne_nil hne]
    rfl
  rw [extent, hlast]
  exact origin_through hts (List.getLast_mem hne)

theorem increasing_append {ts us : List Token} (h : Token.Increasing (ts ++ us)) :
    Token.Increasing ts ∧ Token.Increasing us :=
  ⟨(List.pairwise_append.mp h).1, (List.pairwise_append.mp h).2.1⟩

section Shapes

variable {R : Spelling α} {sites : α → List (SourceFile × Nat)}

theorem Places.listed (hR : Places R sites) : Places (Listed R) (List.flatMap sites) := by
  intro ts as hts h
  induction h with
  | one ha => simpa using hR hts ha
  | more ha ht has ih =>
    obtain ⟨hleft, hright⟩ := increasing_append hts
    rw [Cursor.origins_append, List.flatMap_cons]
    exact (hR hleft ha).append ((ih hright.of_cons).cons _)

theorem Places.closed (hR : Places R sites) : Places (Closed R) (List.flatMap sites) := by
  intro ts as hts h
  induction h with
  | nil => exact List.nil_sublist _
  | cons hss ha has ih =>
    obtain ⟨hleft, hright⟩ := increasing_append (increasing_append hts).2
    rw [Cursor.origins_append, Cursor.origins_append, List.flatMap_cons]
    exact ((hR hleft ha).append (ih hright)).trans (List.sublist_append_right ..)

theorem Places.chained (hR : Places R sites) : Places (Chained R) (List.flatMap sites) := by
  intro ts as hts h
  induction h with
  | nil => exact List.nil_sublist _
  | cons ha has ih =>
    obtain ⟨hleft, hright⟩ := increasing_append hts
    rw [Cursor.origins_append, List.flatMap_cons]
    exact (hR hleft ha).append (ih hright)

theorem Places.between {left right : TokenKind} (hR : Places R sites) :
    Places (Between left right R) sites := by
  intro ts a hts h
  cases h with
  | intro hl ha hr =>
    have hinner := hR (increasing_append hts.of_cons).1 ha
    refine List.Sublist.cons _ ?_
    rw [List.map_append]
    exact hinner.trans (List.sublist_append_left ..)

theorem Places.headed {kind : TokenKind} (hR : Places R sites) : Places (Headed kind R) sites := by
  intro ts a hts h
  cases h with
  | intro ht ha => exact (hR hts.of_cons ha).cons _

theorem Places.omissible {R : Spelling (List α)} (hR : Places R (List.flatMap sites)) :
    Places (Omissible R) (List.flatMap sites) := by
  intro ts as hts h
  cases h with
  | absent => exact List.nil_sublist _
  | present h => exact hR hts h

end Shapes

/-! ### Places of fields -/

theorem places_parameter (rejected : ModifierSet) (B : Spelling (Option Binding)) :
    Places (OfParameter rejected B) fun p => [p.span.origin] := by
  intro ts p hts h
  cases h with
  | intro => exact origin_extent hts (by simp)

theorem places_classParameters (isCase : Bool) (kind : TypeKind) :
    Places (OfClassParameters isCase kind) (List.flatMap fun p => [p.span.origin]) := by
  intro ts ps hts h
  cases h with
  | absent => exact List.nil_sublist _
  | present hps => exact (places_parameter ..).listed.omissible.between hts hps

theorem places_member :
    Places OfMember fun m => m.field?.toList.flatMap fun f => [f.span.origin] := by
  intro ts m hts h
  cases h with
  | method => exact List.nil_sublist _
  | field hf =>
    cases hf with
    | intro => exact origin_extent hts (by simp)

end Spelling

def Member.name : Member → Ident
  | field f => f.name
  | method m => m.name

def TypeDef.fieldSpans (d : TypeDef) : List Span :=
  d.parameters.map (·.span) ++ d.fields.map (·.span)

theorem TypeDef.origins_fieldSpans (d : TypeDef) :
    d.fieldSpans.map Span.origin = d.parameters.flatMap (fun p => [p.span.origin]) ++
      d.members.flatMap fun m => m.field?.toList.flatMap fun f => [f.span.origin] := by
  rw [fieldSpans, fields, List.filterMap_eq_flatMap_toList, List.map_append, List.map_map,
    List.map_map, List.map_flatMap, ← List.flatMap_pure_eq_map]
  simp only [← List.flatMap_pure_eq_map]
  rfl

namespace Spelling

theorem OfTypeDef.exists_members {ts : List Token} {d : TypeDef} (h : OfTypeDef ts d) :
    ∃ isCase us bs, (us ++ bs).Sublist ts ∧ OfClassParameters isCase d.kind us d.parameters ∧
      Omissible (Braced OfMember) bs d.members := by
  cases h with
  | @intro hs ms w kind t ts tps us ps vs parents bs members hms hw hadmitted ht htps hps hparents
      hmembers =>
    refine ⟨ms.contains .case, us, bs, ?_, hps, hmembers⟩
    have hbody : (us ++ bs).Sublist (ts ++ (us ++ (vs ++ bs))) :=
      ((List.Sublist.refl us).append (List.sublist_append_right vs bs)).trans
        (List.sublist_append_right ts _)
    exact ((hbody.cons t).cons w).trans (List.sublist_append_right hs _)

theorem OfTypeDef.exists_member {ts : List Token} {d : TypeDef} (h : OfTypeDef ts d) {m : Member}
    (hm : m ∈ d.members) : ∃ us, us.Sublist ts ∧ OfMember us m := by
  obtain ⟨isCase, us, bs, hsub, -, hmembers⟩ := h.exists_members
  have hbs := (List.sublist_append_right us bs).trans hsub
  generalize d.members = ms at hm hmembers
  cases hmembers with
  | absent => cases hm
  | present hmembers =>
    obtain ⟨vs, hvs, hv⟩ := hmembers.exists_of_mem hm
    exact ⟨vs, hvs.trans hbs, hv⟩

theorem Places.members {sites : Member → List (SourceFile × Nat)} (h : Places OfMember sites) :
    Places OfTypeDef fun d => d.members.flatMap sites := by
  intro ts d hts hd
  obtain ⟨isCase, us, bs, hsub, -, hmembers⟩ := hd.exists_members
  have hbs := (increasing_append (hts.sublist hsub)).2
  exact (h.closed.headed.omissible hbs hmembers).trans
    (((List.sublist_append_right us bs).trans hsub).map _)

theorem places_fieldSpans : Places OfTypeDef fun d => d.fieldSpans.map Span.origin := by
  intro ts d hts h
  obtain ⟨isCase, us, bs, hsub, hps, hmembers⟩ := h.exists_members
  obtain ⟨hus, hbs⟩ := increasing_append (hts.sublist hsub)
  have hparameters := places_classParameters isCase d.kind hus hps
  have hfields := places_member.closed.headed.omissible hbs hmembers
  dsimp only
  rw [TypeDef.origins_fieldSpans]
  refine (hparameters.append hfields).trans ?_
  rw [← Cursor.origins_append]
  exact hsub.map _

theorem places_memberNames :
    Places OfTypeDef fun d => d.members.flatMap fun m => [m.name.span.origin] := by
  refine Places.members ?_
  intro ts m hts h
  refine List.singleton_sublist.mpr (List.mem_map.mpr ?_)
  cases h with
  | field hf =>
    cases hf with
    | @intro hs ms w b t => exact ⟨t, by simp, rfl⟩
  | method hm =>
    cases hm with
    | @intro hs ms w t => exact ⟨t, by simp, rfl⟩

theorem places_signature : Places OfTypeDef fun d => [d.signature].map Span.origin := by
  intro ts d hts h
  cases h with
  | @intro hs ms w kind t us =>
    have hfirst : ∀ vs, firstSpan (hs ++ w :: vs) = firstSpan (hs ++ [w]) := by
      intro vs
      cases hs <;> rfl
    have horigin := origin_through (t := t) hts (by simp)
    rw [hfirst] at horigin
    exact horigin

theorem places_methodSignatures :
    Places OfTypeDef fun d => (d.methods.map (·.signature)).map Span.origin := by
  have hmember : Places OfMember fun m => m.method?.toList.map fun f => f.signature.origin := by
    intro ts m hts h
    cases h with
    | field => exact List.nil_sublist _
    | method hm =>
      cases hm with
      | @intro hs ms w t us tps vs cs ws result bs =>
        have hsplit : hs ++ w :: t :: (us ++ (vs ++ (ws ++ bs))) =
            (hs ++ w :: t :: (us ++ (vs ++ ws))) ++ bs := by simp
        rw [hsplit] at hts ⊢
        rw [Cursor.origins_append]
        exact (origin_extent (increasing_append hts).1 (by simp)).trans
          (List.sublist_append_left ..)
  intro ts d hts h
  have hmembers := hmember.members hts h
  dsimp only at hmembers ⊢
  rw [TypeDef.methods, List.filterMap_eq_flatMap_toList, List.map_map, List.map_flatMap]
  exact hmembers

theorem Places.definitions {sites : TypeDef → List (SourceFile × Nat)}
    (h : Places OfTypeDef sites) : Places OfDefinitions (List.flatMap sites) := by
  intro ts ds hts hds
  induction hds with
  | nil => exact List.nil_sublist _
  | cons hss hd hds ih =>
    obtain ⟨hleft, hright⟩ := increasing_append (increasing_append hts).2
    rw [Cursor.origins_append, Cursor.origins_append, List.flatMap_cons]
    exact ((h hleft hd).append (ih hright)).trans (List.sublist_append_right ..)

end Spelling

/-! ### Programs -/

/-- A program is spelled by tokens of its text, with which the text begins. -/
theorem Program.spelled_ofText {file : SourceFile} {text : String} {p : Program}
    (h : ofText file text = .ok p) : ∃ ts rest,
      (TokenStream.ofText file text).tokens = ts ++ rest ∧
        Spelling.OfDefinitions ts p.definitions := by
  have hfinal : (TokenStream.ofText file text).final.kind = .eof :=
    (TokenStream.scannedFrom file Location.start text.toList).final
  obtain ⟨ts, c, hts, -, hspells⟩ := spells_ofTokens hfinal h
  exact ⟨ts, c.ahead, hts.ahead, hspells⟩

theorem Program.file_of_ofText {file : SourceFile} {text : String} {p : Program}
    (h : ofText file text = .ok p) : ∀ d ∈ p.definitions, d.name.span.file = file := by
  intro d hd
  obtain ⟨ts, rest, htokens, hspells⟩ := spelled_ofText h
  obtain ⟨us, hus, hdef⟩ := hspells.exists_typeDef d hd
  obtain ⟨t, ht, -, hname⟩ := hdef.exists_name
  rw [hname]
  refine (TokenStream.scannedFrom file Location.start text.toList).file t ?_
  exact htokens ▸ List.mem_append_left _ (hus.subset ht)

theorem Spelling.Places.ofText {sites : TypeDef → List (SourceFile × Nat)}
    (hsites : Places OfTypeDef sites) {file : SourceFile} {text : String} {p : Program}
    (h : Program.ofText file text = .ok p) :
    (p.definitions.flatMap sites).Sublist
      (Cursor.origins (TokenStream.ofText file text).tokens) := by
  obtain ⟨ts, rest, htokens, hspells⟩ := Program.spelled_ofText h
  have hincreasing : Token.Increasing (TokenStream.ofText file text).tokens :=
    (TokenStream.scannedFrom file Location.start text.toList).increasing
  rw [htokens] at hincreasing ⊢
  rw [Cursor.origins_append]
  exact (hsites.definitions (increasing_append hincreasing).1 hspells).trans
    (List.sublist_append_left ..)

section Texts

variable {texts : List (SourceFile × String)} {units : List Program}

theorem exists_ofText_of_parseAll (h : parseAll texts = .ok units) {d : TypeDef}
    (hd : d ∈ units.flatMap (·.definitions)) : ∃ source ∈ texts, ∃ p ∈ units,
      Program.ofText source.1 source.2 = .ok p ∧ d ∈ p.definitions := by
  have hread := forall₂_of_parseAll h
  clear h
  induction hread with
  | nil => cases hd
  | @cons source p texts ps hfirst _ ih =>
    rw [List.flatMap_cons, List.mem_append] at hd
    rcases hd with hd | hd
    · exact ⟨source, List.mem_cons_self .., p, List.mem_cons_self .., hfirst, hd⟩
    · obtain ⟨source', hsource, p', hp, hfirst, hd⟩ := ih hd
      exact ⟨source', List.mem_cons_of_mem _ hsource, p', List.mem_cons_of_mem _ hp, hfirst, hd⟩

theorem exists_ofTypeDef (h : parseAll texts = .ok units) {d : TypeDef}
    (hd : d ∈ units.flatMap (·.definitions)) : ∃ ts, Spelling.OfTypeDef ts d := by
  obtain ⟨source, -, p, -, hp, hd⟩ := exists_ofText_of_parseAll h hd
  obtain ⟨ts, rest, -, hspells⟩ := Program.spelled_ofText hp
  obtain ⟨us, -, hdef⟩ := hspells.exists_typeDef d hd
  exact ⟨us, hdef⟩

theorem Spelling.Places.parseAll {sites : TypeDef → List (SourceFile × Nat)}
    (hsites : Places OfTypeDef sites) (h : Mixin.parseAll texts = .ok units) :
    ((units.flatMap (·.definitions)).flatMap sites).Sublist
      (texts.flatMap fun source =>
        Cursor.origins (TokenStream.ofText source.1 source.2).tokens) := by
  have hread := forall₂_of_parseAll h
  clear h
  induction hread with
  | nil => exact List.nil_sublist _
  | cons hfirst _ ih =>
    rw [List.flatMap_cons, List.flatMap_cons, List.flatMap_append]
    exact (hsites.ofText hfirst).append ih

/-- In texts of different files no two of the spans are the same, if in each type they begin with
different tokens. -/
theorem Spelling.Places.nodup {spans : TypeDef → List Span}
    (hspans : Places OfTypeDef fun d => (spans d).map Span.origin)
    (hfiles : (texts.map (·.1)).Nodup) (h : Mixin.parseAll texts = .ok units) :
    ((units.flatMap (·.definitions)).flatMap spans).Nodup := by
  have hsites := (nodup_sites hspans.ofText hfiles h).1
  refine List.Nodup.of_map Span.origin ?_
  rw [List.map_flatMap, List.flatMap_assoc]
  exact hsites

theorem nodup_fieldSpans (hfiles : (texts.map (·.1)).Nodup) (h : parseAll texts = .ok units) :
    ((units.flatMap (·.definitions)).flatMap TypeDef.fieldSpans).Nodup :=
  Spelling.places_fieldSpans.nodup hfiles h

theorem nodup_signatures (hfiles : (texts.map (·.1)).Nodup) (h : parseAll texts = .ok units) :
    ((units.flatMap (·.definitions)).map (·.signature)).Nodup := by
  rw [List.map_eq_flatMap]
  exact Spelling.places_signature.nodup hfiles h

theorem nodup_methodSignatures (hfiles : (texts.map (·.1)).Nodup) (h : parseAll texts = .ok units) :
    (((units.flatMap (·.definitions)).flatMap (·.methods)).map (·.signature)).Nodup := by
  rw [List.map_flatMap]
  exact Spelling.places_methodSignatures.nodup hfiles h

end Texts

theorem exists_ok_of_toOption {ε α β : Type} {x : Except ε α} {f : α → β} {b : β}
    (h : x.toOption.map f = some b) : ∃ a, x = .ok a ∧ f a = b := by
  cases x with
  | error e => cases h
  | ok a => exact ⟨a, rfl, Option.some.inj h⟩

end Mixin
