import Mathlib.Data.List.Flatten
import Mixin.Proofs.Acceptance
import Mixin.Proofs.Analysis.Duplicates

/-!
# What the parents of types are bound to

Which types names denote is said here by the list of the definitions alone: a name belongs to the
first type that is declared with it, wherever that stands (`Binds`). Resolving the parents of parsed
definitions gives each of them the supertypes that its parents denote (`Parentage`), and reports
each parent whose name denotes nothing once, in the order in which they are written
(`parents_resolve_to_bound_types`).
-/

namespace Mixin

/-! ### Names and types -/

def typeNames (ds : List TypeDef) : List String := "Any" :: ds.map fun d => d.name.text

/-- A name is bound to the first type that has it. -/
structure Binds (ds : List TypeDef) (name : String) (c : ClassId) : Prop where
  named : (typeNames ds)[c.index]? = some name
  first : ∀ i < c.index, (typeNames ds)[i]? ≠ some name

def IsTrait (ds : List TypeDef) (c : ClassId) : Prop :=
  ∃ d, (d, c) ∈ Analysis.numbered ds ∧ d.kind = .trait

namespace Binds

variable {ds : List TypeDef} {name name' : String} {c c' : ClassId}

theorem name_eq (h : Binds ds name c) (h' : Binds ds name' c) : name = name' :=
  Option.some.inj (h.named.symm.trans h'.named)

theorem type_eq (h : Binds ds name c) (h' : Binds ds name c') : c = c' := by
  have hle : c.index ≤ c'.index := Nat.le_of_not_lt fun hlt => h.first _ hlt h'.named
  have hge : c'.index ≤ c.index := Nat.le_of_not_lt fun hlt => h'.first _ hlt h.named
  obtain ⟨i⟩ := c
  obtain ⟨j⟩ := c'
  exact congrArg ClassId.mk (Nat.le_antisymm hle hge)

theorem mem (h : Binds ds name c) : name ∈ typeNames ds := List.mem_of_getElem? h.named

end Binds

theorem SymbolTable.lookup?_eq_some_iff_binds {ds : List TypeDef} {t : SymbolTable}
    (hnames : t.names = typeNames ds) {name : String} {c : ClassId} :
    t.lookup? name = some c ↔ Binds ds name c := by
  obtain ⟨i⟩ := c
  rw [lookup?_eq_findIdx?, hnames, Option.map_eq_some_iff]
  constructor
  · rintro ⟨j, hj, hji⟩
    obtain rfl := ClassId.mk.inj hji
    obtain ⟨hlt, hname, hfirst⟩ := List.findIdx?_eq_some_iff_getElem.mp hj
    refine ⟨?_, fun k hk hget => ?_⟩
    · rw [List.getElem?_eq_getElem hlt, beq_iff_eq.mp hname]
    · obtain ⟨hlt', hname'⟩ := List.getElem?_eq_some_iff.mp hget
      exact hfirst k hk (beq_iff_eq.mpr hname')
  · rintro ⟨hnamed, hfirst⟩
    obtain ⟨hlt, hget⟩ := List.getElem?_eq_some_iff.mp hnamed
    refine ⟨i, List.findIdx?_eq_some_iff_getElem.mpr ⟨hlt, beq_iff_eq.mpr hget, ?_⟩, rfl⟩
    intro k hk hname
    refine hfirst k hk ?_
    rw [List.getElem?_eq_getElem (hk.trans hlt), beq_iff_eq.mp hname]

/-! ### The supertypes of a definition -/

/-- The names of the parents that are left when the first became the superclass or did not. -/
def TypeDef.otherParents (d : TypeDef) (superclass : Option ClassId) : List String :=
  if superclass.isSome then d.parentNames.tail else d.parentNames

/-- The supertypes that a definition gives to its type. -/
structure Parentage (ds : List TypeDef) (d : TypeDef) (superclass : Option ClassId)
    (traits : List ClassId) : Prop where
  /-- Only the first parent can be the superclass. -/
  first : ∀ c, superclass = some c ↔
    ∃ name, d.parentNames.head? = some name ∧ Binds ds name c ∧ ¬ IsTrait ds c
  /-- The other parents are traits if they denote anything. The markers of case classes and case
  objects follow. -/
  others : ∃ written marked, traits = written ++ marked ∧
    List.Forall₂ (Binds ds) ((d.otherParents superclass).filter (· ∈ typeNames ds)) written ∧
    List.Forall₂ (Binds ds)
      (if d.isCase then ["Product", "Serializable"].filter fun marker =>
        marker ∈ typeNames ds ∧ marker ∉ d.otherParents superclass else [])
      marked

namespace Resolution

variable {ds : List TypeDef} {t : SymbolTable} {d : TypeDef} {heir : ClassId}

theorem foldl_addParent_succ (t : SymbolTable) (d : TypeDef) (heir : ClassId)
    (written : List Ident) (position : Nat) (r : Resolution) :
    let r' := (written.zipIdx (position + 1)).foldl (addParent t d heir) r
    r'.superclass = r.superclass ∧
      r'.traits = r.traits ++ (written.map (·.text)).filterMap t.lookup? := by
  induction written generalizing position r with
  | nil => simp
  | cons name written ih =>
    obtain ⟨hsuperclass, htraits⟩ := ih (position + 1) (r.addParent t d heir (name, position + 1))
    simp only [List.zipIdx_cons, List.foldl_cons, List.map_cons, List.filterMap_cons, hsuperclass,
      htraits]
    simp only [addParent, Nat.succ_ne_zero, false_and, if_false]
    cases t.lookup? name.text <;> simp

theorem superclass_addMarkers (markers : List String) (r : Resolution) :
    (markers.foldl (addMarker t d heir) r).superclass = r.superclass := by
  induction markers generalizing r with
  | nil => rfl
  | cons marker markers ih =>
    rw [List.foldl_cons, ih]
    unfold addMarker
    split
    · split <;> rfl
    · rfl

theorem forall₂_lookup? (hnames : t.names = typeNames ds) (names : List String) :
    List.Forall₂ (Binds ds) (names.filter (· ∈ typeNames ds)) (names.filterMap t.lookup?) := by
  induction names with
  | nil => exact .nil
  | cons name names ih =>
    cases hc : t.lookup? name with
    | none =>
      have hnot := SymbolTable.lookup?_eq_none_iff.mp hc
      rw [hnames] at hnot
      rw [List.filterMap_cons_none hc, List.filter_cons_of_neg (by simpa using hnot)]
      exact ih
    | some c =>
      have hbinds := (SymbolTable.lookup?_eq_some_iff_binds hnames).mp hc
      rw [List.filterMap_cons_some hc, List.filter_cons_of_pos (by simpa using hbinds.mem)]
      exact .cons hbinds ih

theorem mem_iff_of_forall₂ {names : List String} {cs : List ClassId}
    (h : List.Forall₂ (Binds ds) names cs) {name : String} {c : ClassId} (hc : Binds ds name c) :
    c ∈ cs ↔ name ∈ names := by
  constructor
  · intro hmem
    obtain ⟨name', hname', hbinds⟩ := exists_mem_of_forall₂ h hmem
    rw [hc.name_eq hbinds]
    exact hname'
  · intro hmem
    obtain ⟨c', hc', hbinds⟩ := exists_mem_of_forall₂ h.flip hmem
    rw [hc.type_eq hbinds]
    exact hc'

theorem traits_addMarkers (d : TypeDef) (heir : ClassId) (hnames : t.names = typeNames ds)
    {markers : List String} (hmarkers : markers.Nodup) {names : List String} {r : Resolution}
    (hr : List.Forall₂ (Binds ds) names r.traits) :
    ∃ marked, (markers.foldl (addMarker t d heir) r).traits = r.traits ++ marked ∧
      List.Forall₂ (Binds ds)
        (markers.filter fun marker => marker ∈ typeNames ds ∧ marker ∉ names) marked := by
  induction markers generalizing r names with
  | nil => exact ⟨[], by simp, .nil⟩
  | cons marker markers ih =>
    rw [List.nodup_cons] at hmarkers
    rw [List.foldl_cons]
    cases hc : t.lookup? marker with
    | none =>
      have hnot := SymbolTable.lookup?_eq_none_iff.mp hc
      rw [hnames] at hnot
      have hskip : addMarker t d heir r marker = r := by simp only [addMarker, hc]
      rw [hskip, List.filter_cons_of_neg (by simp [hnot])]
      exact ih hmarkers.2 hr
    | some c =>
      have hbinds := (SymbolTable.lookup?_eq_some_iff_binds hnames).mp hc
      by_cases hmem : c ∈ r.traits
      · have hlisted := (mem_iff_of_forall₂ hr hbinds).mp hmem
        have hskip : addMarker t d heir r marker = r := by simp only [addMarker, hc, if_pos hmem]
        rw [hskip, List.filter_cons_of_neg (by simp [hlisted])]
        exact ih hmarkers.2 hr
      · have hlisted := mt (mem_iff_of_forall₂ hr hbinds).mpr hmem
        have hadd : (addMarker t d heir r marker).traits = r.traits ++ [c] := by
          simp only [addMarker, hc, if_neg hmem]
        -- The marker is listed from now on, but it is none of those that follow.
        have hfollowing : (markers.filter fun m => m ∈ typeNames ds ∧ m ∉ names ++ [marker]) =
            markers.filter fun m => m ∈ typeNames ds ∧ m ∉ names := by
          refine List.filter_congr fun m hm => ?_
          have hne : m ≠ marker := fun heq => hmarkers.1 (heq ▸ hm)
          simp [hne]
        have hlonger : List.Forall₂ (Binds ds) (names ++ [marker])
            (addMarker t d heir r marker).traits := by
          rw [hadd]
          exact List.rel_append hr (.cons hbinds .nil)
        obtain ⟨marked, htraits, hmarked⟩ := ih hmarkers.2 hlonger
        rw [hfollowing] at hmarked
        refine ⟨c :: marked, by rw [htraits, hadd, List.append_assoc]; rfl, ?_⟩
        rw [List.filter_cons_of_pos (by simp [hbinds.mem, hlisted])]
        exact .cons hbinds hmarked

theorem superclass_written (hnames : t.names = typeNames ds)
    (hkinds : ∀ name c, Binds ds name c → ((t.classInfo c).kind = .trait ↔ IsTrait ds c))
    (d : TypeDef) (heir : ClassId) :
    let r := (d.parents.map fun p => p.type.name).zipIdx.foldl (addParent t d heir)
      ⟨none, [], [], []⟩
    (∀ c, r.superclass = some c ↔
      ∃ name, d.parentNames.head? = some name ∧ Binds ds name c ∧ ¬ IsTrait ds c) ∧
      r.traits = (d.otherParents r.superclass).filterMap t.lookup? := by
  simp only [TypeDef.otherParents, TypeDef.parentNames]
  cases d.parents with
  | nil => simp
  | cons parent parents =>
    obtain ⟨hsuperclass, htraits⟩ := foldl_addParent_succ t d heir
      (parents.map fun p => p.type.name) 0
      (addParent t d heir ⟨none, [], [], []⟩ (parent.type.name, 0))
    simp only [List.map_cons, List.zipIdx_cons, List.foldl_cons, hsuperclass, htraits,
      List.head?_cons, Option.some.injEq, exists_eq_left', List.tail_cons, List.map_map]
    simp only [addParent]
    cases hc : t.lookup? parent.type.name.text with
    | none =>
      refine ⟨fun c => ?_, by simp [hc, Function.comp_def]⟩
      simp only [reduceCtorEq, false_iff, not_and]
      intro hbinds
      rw [(SymbolTable.lookup?_eq_some_iff_binds hnames).mpr hbinds] at hc
      cases hc
    | some c =>
      have hbinds := (SymbolTable.lookup?_eq_some_iff_binds hnames).mp hc
      by_cases htrait : IsTrait ds c
      · have hkind := (hkinds _ c hbinds).mpr htrait
        simp only [hkind, ne_eq, not_true_eq_false, and_false, if_false]
        refine ⟨fun c' => ?_, by simp [hc, Function.comp_def]⟩
        simp only [reduceCtorEq, false_iff, not_and, not_not]
        intro hbinds'
        rw [← hbinds.type_eq hbinds']
        exact htrait
      · have hkind := mt (hkinds _ c hbinds).mp htrait
        simp only [ne_eq, hkind, not_false_eq_true, and_self, if_true, Option.some.injEq]
        refine ⟨fun c' => ?_, by simp [Function.comp_def]⟩
        constructor
        · rintro rfl
          exact ⟨hbinds, htrait⟩
        · rintro ⟨hbinds', -⟩
          exact hbinds.type_eq hbinds'

theorem parentage_ofTypeDef (hnames : t.names = typeNames ds)
    (hkinds : ∀ name c, Binds ds name c → ((t.classInfo c).kind = .trait ↔ IsTrait ds c))
    (d : TypeDef) (heir : ClassId) :
    Parentage ds d (ofTypeDef t d heir).superclass (ofTypeDef t d heir).traits := by
  obtain ⟨hsuperclass, htraits⟩ := superclass_written hnames hkinds d heir
  have hwritten := forall₂_lookup? hnames (d.otherParents ((d.parents.map fun p =>
    p.type.name).zipIdx.foldl (addParent t d heir) ⟨none, [], [], []⟩).superclass)
  rw [← htraits] at hwritten
  rw [ofTypeDef]
  by_cases hcase : d.isCase = true
  · rw [if_pos hcase]
    have hdistinct : caseMarkers.Nodup := by decide
    obtain ⟨marked, hmarkers, hmarked⟩ := traits_addMarkers d heir hnames hdistinct hwritten
    refine ⟨?_, _, marked, hmarkers, ?_, ?_⟩
    · rw [superclass_addMarkers]
      exact hsuperclass
    · rw [superclass_addMarkers]
      exact hwritten
    · rw [superclass_addMarkers, if_pos hcase]
      refine List.filter_congr (fun marker _ => ?_) ▸ hmarked
      by_cases hmarker : marker ∈ typeNames ds <;> simp [hmarker]
  · rw [if_neg hcase]
    refine ⟨hsuperclass, _, [], (List.append_nil _).symm, hwritten, ?_⟩
    rw [if_neg hcase]
    exact .nil

end Resolution

/-! ### Unbound parents -/

def TypeDef.unboundParents (ds : List TypeDef) (d : TypeDef) : List Ident :=
  (d.parents.map fun p => p.type.name).filter fun name => name.text ∉ typeNames ds

def TypeDef.unboundReports (ds : List TypeDef) (d : TypeDef) : List Diagnostic :=
  (d.unboundParents ds).map fun name => .unresolvedSupertype name.text d.name.text name.span

theorem Resolution.diagnostics_eq_unboundReports {ds : List TypeDef} {t : SymbolTable}
    (hnames : t.names = typeNames ds) (d : TypeDef) (heir : ClassId) :
    (ofTypeDef t d heir).diagnostics = d.unboundReports ds := by
  rw [diagnostics_ofTypeDef, TypeDef.unboundReports, TypeDef.unboundParents]
  induction d.parents.map fun p => p.type.name with
  | nil => rfl
  | cons name names ih =>
    by_cases hname : name.text ∈ typeNames ds
    · obtain ⟨c, hc⟩ : ∃ c, t.lookup? name.text = some c := by
        rw [← hnames, ← not_not (a := name.text ∈ _), ← SymbolTable.lookup?_eq_none_iff] at hname
        exact Option.ne_none_iff_exists'.mp hname
      have hreport : unresolved? t d name = none := by simp only [unresolved?, hc]
      rw [List.filterMap_cons_none hreport, ih, List.filter_cons_of_neg (by simpa using hname)]
    · have hc : t.lookup? name.text = none := SymbolTable.lookup?_eq_none_iff.mpr (hnames ▸ hname)
      have hreport : unresolved? t d name =
          some (.unresolvedSupertype name.text d.name.text name.span) := by
        simp only [unresolved?, hc]
      rw [List.filterMap_cons_some hreport, ih, List.filter_cons_of_pos (by simpa using hname),
        List.map_cons]

theorem TypeDef.sublist_unboundReports (ds : List TypeDef) (d : TypeDef) :
    ((d.unboundReports ds).map (·.location.origin)).Sublist
      (d.parents.map fun p => p.type.name.span.origin) := by
  have hnames : (d.unboundParents ds).Sublist (d.parents.map fun p => p.type.name) :=
    List.filter_sublist
  have hsites := hnames.map fun name => name.span.origin
  rw [List.map_map] at hsites
  rw [unboundReports, List.map_map]
  exact hsites

namespace Spelling

theorem places_parentName : Places OfParent fun p => [p.type.name.span.origin] := by
  intro ts p _ h
  refine List.singleton_sublist.mpr (List.mem_map.mpr ?_)
  cases h with
  | @intro us n vs as hn =>
    cases hn with
    | @intro t => exact ⟨t, by simp, rfl⟩

theorem places_parents : Places OfParents (List.flatMap fun p => [p.type.name.span.origin]) := by
  intro ts ps hts h
  cases h with
  | none => exact List.nil_sublist _
  | some hp hps =>
    obtain ⟨hleft, hright⟩ := increasing_append hts
    rw [Cursor.origins_append, List.flatMap_cons]
    exact (places_parentName.headed hleft hp).append (places_parentName.headed.chained hright hps)

theorem places_parentNames :
    Places OfTypeDef fun d => d.parents.map fun p => p.type.name.span.origin := by
  intro ts d hts h
  cases h with
  | @intro hs ms w kind t ts tps us ps vs parents bs members _ _ _ _ _ _ hparents =>
    have hvs : vs.Sublist (hs ++ w :: t :: (ts ++ (us ++ (vs ++ bs)))) :=
      ((((List.sublist_append_left ..).trans (List.sublist_append_right ..)).trans
        (List.sublist_append_right ..)).cons t |>.cons w).trans (List.sublist_append_right ..)
    have hnames := places_parents (hts.sublist hvs) hparents
    rw [← List.map_eq_flatMap] at hnames
    exact hnames.trans (hvs.map fun t : Token => t.span.origin)

end Spelling

/-! ### All definitions -/

namespace Analysis

variable {ds : List TypeDef} {a : Analysis}

theorem kind_root_collected (units : List Program) :
    ((Analysis.initial.collectDeclarations units).symbols.classInfo .root).kind = .«class» :=
  congrArg (fun c : ClassInfo => c.kind) (Collected.initial.classInfo_root_foldl _)

theorem Collected.kind_eq_trait_iff (h : Collected ds a)
    (hroot : (a.symbols.classInfo .root).kind = .«class») {name : String} {c : ClassId}
    (hc : Binds ds name c) : (a.symbols.classInfo c).kind = .trait ↔ IsTrait ds c := by
  rcases h.exists_of_lookup? ((SymbolTable.lookup?_eq_some_iff_binds h.names).mpr hc) with
    rfl | ⟨p, hp, rfl, -⟩
  · constructor
    · intro hkind
      rw [hroot] at hkind
      cases hkind
    · rintro ⟨d, hd, -⟩
      exact absurd rfl (ne_root_of_numbered hd)
  · rw [h.decl p hp]
    constructor
    · intro hkind
      exact ⟨p.1, hp, hkind⟩
    · rintro ⟨d, hd, hkind⟩
      have hdp : (d, p.2) = p := List.inj_on_of_nodup_map (nodup_numbered ds) hd hp rfl
      rw [← hdp]
      exact hkind

/-- What resolving the parents of the definitions `ds` makes of an analysis. -/
structure ResolvesParents (ds : List TypeDef) (before after : Analysis) : Prop where
  /-- Each unbound parent is reported where it is named, and nothing else is. -/
  reports : after.diagnostics = before.diagnostics ++ ds.flatMap (TypeDef.unboundReports ds)
  /-- The registry takes each definition for the last one that stands where it does. -/
  known : ∀ p ∈ numbered ds, before.registry.classOf p.1 = .ok (occupant ds p).2
  /-- Each definition that is taken for itself gives its type the supertypes that its parents are
  bound to. -/
  own : ∀ p ∈ numbered ds, occupant ds p = p → ∃ superclass traits,
    Parentage ds p.1 superclass traits ∧ after.symbols.classInfo p.2 =
      { before.symbols.classInfo p.2 with superclass := superclass, traits := traits }
  /-- The types of the others get no supertypes. -/
  others : ∀ p ∈ numbered ds, occupant ds p ≠ p →
    after.symbols.classInfo p.2 = before.symbols.classInfo p.2
  /-- There are no other changes. -/
  root : after.symbols.classInfo .root = before.symbols.classInfo .root
  members : after.symbols.methods = before.symbols.methods
  registry : after.registry = before.registry

/-- A type that no definition is taken for is left as it is. -/
theorem classInfo_assigned_located {c : ClassId}
    (hc : ∀ p ∈ numbered ds, (occupant ds p).2 ≠ c) :
    (a.assigned (located ds)).symbols.classInfo c = a.symbols.classInfo c := by
  refine classInfo_foldl_assign _ _ fun hmem => ?_
  rw [located, List.map_map] at hmem
  obtain ⟨p, hp, heq⟩ := List.mem_map.mp hmem
  exact hc p hp heq

theorem Collected.resolvesParents (h : Collected ds a)
    (hroot : (a.symbols.classInfo .root).kind = .«class») :
    ResolvesParents ds a (a.assigned (located ds)) where
  reports := by
    refine congrArg (a.diagnostics ++ ·) ?_
    rw [located, List.flatMap_map]
    exact flatMap_numbered fun p _ => Resolution.diagnostics_eq_unboundReports h.names p.1 _
  known := fun p hp => h.classOf_occupant hp
  own := by
    intro p hp hself
    have hmem : (p.1, (occupant ds p).2) ∈ located ds := List.mem_map_of_mem hp
    have hinfo := classInfo_foldl_assign_of_mem (t := a.symbols) a.symbols hmem
      (h.index_lt_located _ hmem)
    rw [latest_located hp, hself] at hinfo
    refine ⟨_, _, ?_, hinfo⟩
    exact Resolution.parentage_ofTypeDef h.names (fun _ _ hc => h.kind_eq_trait_iff hroot hc) ..
  others := by
    intro p hp hother
    refine classInfo_assigned_located fun q hq heq => hother ?_
    -- What is taken for the type of `p` is taken for `p` itself.
    have hoccupant : occupant ds q = p :=
      List.inj_on_of_nodup_map (nodup_numbered ds) (occupant_mem hq) hp heq
    rw [← hoccupant]
    exact latest_latest hq
  root := classInfo_assigned_located fun p hp => ne_root_of_numbered (occupant_mem hp)
  members := (frame_foldl_assign _ _).2.2
  registry := rfl

/-- The parents of parsed definitions are resolved to the types to which their names are bound, and
each one that is bound to nothing is reported, in the order in which they are written. Of several
definitions at the same place, only the last one gives its type its supertypes. -/
theorem parents_resolve_to_bound_types {texts : List (SourceFile × String)} {units : List Program}
    (hparsed : parseAll texts = .ok units) :
    let ds := units.flatMap (·.definitions)
    let collected := Analysis.initial.collectDeclarations units
    let sites := (ds.flatMap (TypeDef.unboundReports ds)).map (·.location.origin)
    (∃ resolved edges, ds.foldlM resolveType (collected, []) = .ok (resolved, edges) ∧
      ResolvesParents ds collected resolved) ∧
    sites.Sublist (texts.flatMap fun s => Cursor.origins (TokenStream.ofText s.1 s.2).tokens) ∧
    ((ds.map (·.signature)).Nodup → ∀ p ∈ numbered ds, occupant ds p = p) ∧
    ((texts.map (·.1)).Nodup → (ds.map (·.signature)).Nodup ∧ sites.Nodup) := by
  intro ds collected sites
  have hcollected := Analysis.collected units
  have hsites : sites.Sublist
      (ds.flatMap fun d => d.parents.map fun p => p.type.name.span.origin) := by
    simp only [sites, List.map_flatMap]
    exact List.Sublist.flatMap_right _ fun d _ => d.sublist_unboundReports ds
  refine ⟨⟨_, _, hcollected.foldlM_resolveType, ?_⟩, ?_, ?_, fun hfiles => ⟨?_, ?_⟩⟩
  · exact hcollected.resolvesParents (kind_root_collected units)
  · exact hsites.trans (Spelling.places_parentNames.parseAll hparsed)
  · exact fun hdistinct p hp => occupant_eq_self hdistinct hp
  · exact nodup_signatures hfiles hparsed
  · have hnodup := (nodup_sites Spelling.places_parentNames.ofText hfiles hparsed).1
    rw [← List.flatMap_assoc] at hnodup
    exact hnodup.sublist hsites

/-- A superclass that is declared later and twice, a first parent that is a trait or unbound, and a
case class that names one of its markers. -/
theorem parents_resolve_to_bound_types_mixed :
    let texts := [(SourceFile.prelude, "trait Product\ntrait Seq"), (SourceFile.user,
      "case class A extends B with Nope with T with Product\ntrait T extends Lost with A\n" ++
      "class B extends T\nclass B extends Any with Seq\ntrait Serializable")]
    ∃ units, parseAll texts = .ok units ∧
      let ds := units.flatMap (·.definitions)
      let collected := Analysis.initial.collectDeclarations units
      let sites := (ds.flatMap (TypeDef.unboundReports ds)).map (·.location.origin)
      (ds.flatMap (TypeDef.unboundReports ds)).map (·.location.start) = [28, 69] ∧
      (∃ resolved edges, ds.foldlM resolveType (collected, []) = .ok (resolved, edges) ∧
        ResolvesParents ds collected resolved ∧
        resolved.symbols.classes.toList.map (fun c => (c.superclass, c.traits)) =
          [(none, []), (none, []), (none, []), (some ⟨5⟩, [⟨4⟩, ⟨1⟩, ⟨7⟩]), (none, [⟨3⟩]),
            (none, [⟨4⟩]), (some .root, [⟨2⟩]), (none, [])]) ∧
      sites.Sublist (texts.flatMap fun s => Cursor.origins (TokenStream.ofText s.1 s.2).tokens) ∧
      (∀ p ∈ numbered ds, occupant ds p = p) ∧ sites.Nodup := by
  intro texts
  have hfiles : (texts.map (·.1)).Nodup := by decide
  have hchecked : (parseAll texts).toOption.map (fun units =>
      let ds := units.flatMap (·.definitions)
      ((ds.flatMap (TypeDef.unboundReports ds)).map (·.location.start),
        (ds.foldlM resolveType (Analysis.initial.collectDeclarations units, [])).toOption.map
          fun r => r.1.symbols.classes.toList.map fun c => (c.superclass, c.traits))) =
      some ([28, 69],
        some [(none, []), (none, []), (none, []), (some ⟨5⟩, [⟨4⟩, ⟨1⟩, ⟨7⟩]), (none, [⟨3⟩]),
          (none, [⟨4⟩]), (some .root, [⟨2⟩]), (none, [])]) := by
    decide +kernel
  obtain ⟨units, hparsed, hvalues⟩ := exists_ok_of_toOption hchecked
  obtain ⟨⟨resolved, edges, hresolved, hparents⟩, hordered, hself, hplaces⟩ :=
    parents_resolve_to_bound_types hparsed
  simp only [hresolved, Prod.mk.injEq] at hvalues
  obtain ⟨hdistinct, hnodup⟩ := hplaces hfiles
  exact ⟨units, hparsed, hvalues.1, ⟨resolved, edges, hresolved, hparents,
    Option.some.inj hvalues.2⟩, hordered, hself hdistinct, hnodup⟩

/-- Where `A` and `B` stand at the same place, the type of `A` gets no superclass, although the name
of its parent is bound. -/
theorem superclass_lost :
    let texts := [(SourceFile.user, "class A extends C\nclass C"),
      (SourceFile.user, "class B extends D\nclass D")]
    ∃ units resolved edges, parseAll texts = .ok units ∧
      let ds := units.flatMap (·.definitions)
      ds.foldlM resolveType (Analysis.initial.collectDeclarations units, []) =
        .ok (resolved, edges) ∧
      Binds ds "C" ⟨2⟩ ∧ ¬ IsTrait ds ⟨2⟩ ∧ ∃ p ∈ numbered ds,
        p.1.parentNames = ["C"] ∧ (resolved.symbols.classInfo p.2).superclass = none := by
  intro texts
  have hchecked : (parseAll texts).toOption.map (fun units =>
      let ds := units.flatMap (·.definitions)
      let collected := Analysis.initial.collectDeclarations units
      (ds.foldlM resolveType (collected, [])).toOption.map fun r =>
        decide (collected.symbols.lookup? "C" = some ⟨2⟩ ∧ (∀ d ∈ ds, d.kind ≠ .trait) ∧
          ∃ p ∈ numbered ds, p.1.parentNames = ["C"] ∧
            (r.1.symbols.classInfo p.2).superclass = none)) = some (some true) := by
    decide +kernel
  obtain ⟨units, hparsed, hfound⟩ := exists_ok_of_toOption hchecked
  obtain ⟨⟨resolved, edges⟩, hresolved, hfacts⟩ := exists_ok_of_toOption hfound
  obtain ⟨hlookup, hkinds, hnone⟩ := of_decide_eq_true hfacts
  refine ⟨units, resolved, edges, hparsed, hresolved, ?_, ?_, hnone⟩
  · exact (SymbolTable.lookup?_eq_some_iff_binds (Analysis.collected units).names).mp hlookup
  · rintro ⟨d, hd, hkind⟩
    exact hkinds d (mem_of_numbered hd) hkind

end Analysis

end Mixin
