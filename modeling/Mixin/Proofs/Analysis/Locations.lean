import Mixin.Proofs.Analysis.Unimplemented
import Mixin.Proofs.Listing.Names
import Mixin.Proofs.Tree.Parts

/-!
# Where problems are shown

Whatever the analyses report is shown at a span of some definition, and its notes at spans of
definitions (`Diagnostic.Concerns`). Each pass is taken in turn. A definition that inherits from
nothing and follows the rules by itself is concerned by none, so nothing is ever shown in the
prelude (`concerns_user`).
-/

namespace Mixin

/-- A problem is shown within the definition `d`, and its notes within some of the definitions. -/
structure Diagnostic.Concerns (ds : List TypeDef) (d : TypeDef) (e : Diagnostic) : Prop where
  location : e.location ∈ d.spans
  notes : ∀ n ∈ e.boundNotes, ∃ d' ∈ ds, n.1 ∈ d'.spans

theorem Diagnostic.Concerns.mono {ds ds' : List TypeDef} {d : TypeDef} {e : Diagnostic}
    (h : e.Concerns ds d) (hsub : ds ⊆ ds') : e.Concerns ds' d := by
  refine ⟨h.location, fun n hn => ?_⟩
  obtain ⟨d', hd', hspan⟩ := h.notes n hn
  exact ⟨d', hsub hd', hspan⟩

variable {ds : List TypeDef} {d : TypeDef} {e : Diagnostic}

theorem concerns_duplicate {entity name : String} {s : Span} {previous : Option Span}
    (hs : s ∈ d.spans) (hprevious : ∀ t ∈ previous, ∃ d' ∈ ds, t ∈ d'.spans) :
    (Diagnostic.duplicate entity name s previous).Concerns ds d := by
  refine ⟨hs, fun n hn => ?_⟩
  obtain ⟨t, ht, rfl⟩ := List.mem_map.mp hn
  exact hprevious t (Option.mem_toList.mp ht)

/-! ### Declarations -/

theorem exists_of_mem_reportRepeated {earlier names : List Ident}
    (he : e ∈ SymbolTable.reportRepeated earlier names) :
    ∃ name ∈ names, ∃ first ∈ earlier ++ names,
      e = .duplicate "parameter" name.text name.span (some first.span) := by
  induction names generalizing earlier with
  | nil => cases he
  | cons name rest ih =>
    rw [SymbolTable.reportRepeated] at he
    split at he
    next first hfirst =>
      rcases List.mem_cons.mp he with rfl | he
      · exact ⟨name, List.mem_cons_self .., first,
          List.mem_append_left _ (List.mem_of_find?_eq_some hfirst), rfl⟩
      · obtain ⟨n, hn, m, hm, rfl⟩ := ih he
        refine ⟨n, List.mem_cons_of_mem _ hn, m, ?_, rfl⟩
        rcases List.mem_append.mp hm with hm | hm
        · exact List.mem_append_left _ hm
        · exact List.mem_append_right _ (List.mem_cons_of_mem _ hm)
    next =>
      obtain ⟨n, hn, m, hm, rfl⟩ := ih he
      exact ⟨n, List.mem_cons_of_mem _ hn, m, by simpa using hm, rfl⟩

theorem concerns_of_mem_checkParameters (hd : d ∈ ds) {names : List Ident}
    (hnames : ∀ name ∈ names, name.span ∈ d.spans) (he : e ∈ SymbolTable.checkParameters names) :
    e.Concerns ds d := by
  obtain ⟨name, hname, first, hfirst, rfl⟩ := exists_of_mem_reportRepeated he
  refine concerns_duplicate (hnames name hname) ?_
  rintro _ ⟨⟩
  exact ⟨d, hd, hnames first hfirst⟩

theorem mem_of_mem_declarations {x : Declaration} (hx : x ∈ d.declarations) :
    (∃ p ∈ d.parameters, ∃ b, x = .parameter p b) ∨ ∃ m ∈ d.members, x = .member m := by
  rcases List.mem_append.mp hx with hx | hx
  · obtain ⟨p, hp, hbinding⟩ := List.mem_filterMap.mp hx
    obtain ⟨b, -, rfl⟩ := Option.map_eq_some_iff.mp hbinding
    exact .inl ⟨p, (distinctBy_sublist _ _ _).subset hp, b, rfl⟩
  · obtain ⟨m, hm, rfl⟩ := List.mem_map.mp hx
    exact .inr ⟨m, hm, rfl⟩

theorem declaration_mem_spans {x : Declaration} (hx : x ∈ d.declarations) :
    x.name.span ∈ d.spans := by
  rcases mem_of_mem_declarations hx with ⟨p, hp, b, rfl⟩ | ⟨m, hm, rfl⟩
  · exact TypeDef.parameter_mem_spans hp
  · cases m with
    | field f => exact TypeDef.field_mem_spans hm
    | method m => exact TypeDef.method_mem_spans hm

theorem concerns_of_mem_parameterReports (hd : d ∈ ds) {x : Declaration} (hx : x ∈ d.declarations)
    (he : e ∈ x.parameterReports) : e.Concerns ds d := by
  rcases mem_of_mem_declarations hx with ⟨p, hp, b, rfl⟩ | ⟨m, hm, rfl⟩
  · cases he
  · cases m with
    | field f => cases he
    | method m =>
      refine concerns_of_mem_checkParameters hd (fun name hname => ?_) he
      obtain ⟨p, hp, rfl⟩ := List.mem_map.mp hname
      exact TypeDef.methodParameter_mem_spans hm hp

theorem accept_subset (earlier : List Declaration) (x : Declaration) :
    Declaration.accept earlier x ⊆ earlier ++ [x] := by
  unfold Declaration.accept
  split
  · exact List.subset_append_left ..
  · exact List.Subset.refl _

theorem concerns_of_mem_allReports (hd : d ∈ ds) {earlier xs : List Declaration}
    (hearlier : ∀ x ∈ earlier, x.name.span ∈ d.spans) (hxs : ∀ x ∈ xs, x ∈ d.declarations)
    (he : e ∈ Declaration.allReports earlier xs) : e.Concerns ds d := by
  induction xs generalizing earlier with
  | nil => cases he
  | cons x xs ih =>
    obtain ⟨hx, hxs⟩ := List.forall_mem_cons.mp hxs
    rw [Declaration.allReports, Declaration.reports, List.append_assoc, List.mem_append,
      List.mem_append] at he
    rcases he with he | he | he
    · exact concerns_of_mem_parameterReports hd hx he
    · obtain ⟨first, hfirst, rfl⟩ := List.mem_map.mp he
      refine concerns_duplicate (declaration_mem_spans hx) ?_
      rintro _ ⟨⟩
      exact ⟨d, hd, hearlier first (List.mem_of_find?_eq_some (Option.mem_toList.mp hfirst))⟩
    · refine ih (fun y hy => ?_) hxs he
      rcases List.mem_append.mp (accept_subset earlier x hy) with hy | hy
      · exact hearlier y hy
      · rw [List.mem_singleton.mp hy]
        exact declaration_mem_spans hx

theorem mem_redundantAbstract (he : e ∈ d.redundantAbstract) :
    ∃ s, d.modifiers.spanOf? .abstract = some s ∧ e = .redundantAbstract d.name.text s := by
  unfold TypeDef.redundantAbstract at he
  split at he
  · obtain ⟨s, hs, rfl⟩ := List.mem_map.mp he
    exact ⟨s, Option.mem_toList.mp hs, rfl⟩
  · cases he

namespace Analysis

variable {a : Analysis}

section Declared

variable (h : Collected ds a) (hroot : (a.symbols.classInfo .root).site = none)
include h hroot

theorem Collected.concerns_of_mem_declareType (he : e ∈ (a.declareType d).diagnostics) :
    e ∈ a.diagnostics ∨ e.Concerns (ds ++ [d]) d ∧
      (e.isError = true ∨ (d.modifiers.spanOf? .abstract).isSome = true) := by
  have hd : d ∈ ds ++ [d] := List.mem_append_right _ (List.mem_singleton_self d)
  simp only [diagnostics_declareType h.known, List.mem_append, or_assoc] at he
  rcases he with he | he | he | he | he
  · exact .inl he
  · obtain ⟨s, hs, rfl⟩ := mem_redundantAbstract he
    obtain ⟨w, hw, rfl⟩ := Option.map_eq_some_iff.mp hs
    refine .inr ⟨⟨TypeDef.modifier_mem_spans ?_, by simp [Diagnostic.boundNotes]⟩, .inr ?_⟩
    · exact List.mem_map_of_mem (List.mem_of_find?_eq_some hw)
    · rw [hs]
      rfl
  · unfold SymbolTable.declareClass at he
    dsimp only at he
    split at he
    next id hid =>
      rw [List.mem_singleton.mp he]
      refine .inr ⟨concerns_duplicate d.name_mem_spans ?_, .inl rfl⟩
      intro s hs
      rcases h.exists_of_lookup? hid with rfl | ⟨p, hp, rfl, -⟩
      · rw [hroot] at hs
        cases hs
      · have hsite : (a.symbols.classInfo p.2).site = some p.1.name.span :=
          congrArg ClassDecl.site (h.decl p hp)
        rw [hsite] at hs
        cases hs
        exact ⟨p.1, List.mem_append_left _ (mem_of_numbered hp), p.1.name_mem_spans⟩
    next => cases he
  · have hkind := kind_of_mem_reportRepeated he
    refine .inr ⟨concerns_of_mem_checkParameters hd (fun name hname => ?_) he, .inl ?_⟩
    · obtain ⟨p, hp, rfl⟩ := List.mem_map.mp hname
      exact TypeDef.parameter_mem_spans hp
    · rw [Diagnostic.isError, Diagnostic.severity, hkind]
      rfl
  · have hkind := kind_of_mem_allReports he
    refine .inr ⟨concerns_of_mem_allReports hd (by simp) (fun x hx => hx) he, .inl ?_⟩
    rw [Diagnostic.isError, Diagnostic.severity, hkind]
    rfl

theorem Collected.site_root_declareType (d : TypeDef) :
    ((a.declareType d).symbols.classInfo .root).site = none := by
  rw [h.classInfo_declareType d (c := .root) (Nat.zero_le _)]
  exact hroot

theorem Collected.site_root_foldl (rest : List TypeDef) :
    ((rest.foldl Analysis.declareType a).symbols.classInfo .root).site = none := by
  rw [h.classInfo_root_foldl]
  exact hroot

theorem Collected.concerns_of_mem_foldl (rest : List TypeDef)
    (he : e ∈ (rest.foldl Analysis.declareType a).diagnostics) :
    e ∈ a.diagnostics ∨ ∃ d ∈ rest, e.Concerns (ds ++ rest) d ∧
      (e.isError = true ∨ (d.modifiers.spanOf? .abstract).isSome = true) := by
  induction rest generalizing ds a with
  | nil => exact .inl he
  | cons d rest ih =>
    rcases ih (h.declareType d) (h.site_root_declareType hroot d) he with
      he | ⟨d', hd', hconcerns, hreason⟩
    · rcases h.concerns_of_mem_declareType hroot he with he | ⟨hconcerns, hreason⟩
      · exact .inl he
      · have hsub : ds ++ [d] ⊆ ds ++ d :: rest := by simp
        exact .inr ⟨d, List.mem_cons_self .., hconcerns.mono hsub, hreason⟩
    · rw [List.append_assoc] at hconcerns
      exact .inr ⟨d', List.mem_cons_of_mem _ hd', hconcerns, hreason⟩

end Declared

theorem diagnostics_foldl_of_independent
    (hnames : ("Any" :: ds.map fun d => d.name.text).Nodup)
    (hds : ∀ d ∈ ds, d.Independent ∧ d.modifiers.spanOf? .abstract = none) :
    (ds.foldl Analysis.declareType Analysis.initial).diagnostics = [] := by
  have hcollected : Collected ds (ds.foldl Analysis.declareType Analysis.initial) :=
    Collected.initial.foldl ds
  have hharmless := hcollected.harmless.mpr ⟨hnames, fun d hd => (hds d hd).1.declared⟩
  refine List.eq_nil_iff_forall_not_mem.mpr fun e he => ?_
  rcases Collected.initial.concerns_of_mem_foldl rfl ds he with he' | ⟨d, hd, -, herror | habstract⟩
  · cases he'
  · have hfine := hharmless e he
    rw [herror] at hfine
    cases hfine
  · rw [(hds d hd).2] at habstract
    cases habstract

end Analysis

/-! ### Supertypes -/

namespace Resolution

variable {t : SymbolTable} {heir : ClassId} {i : Inheritance}

theorem mem_edges_addParents (written : List Ident) (position : Nat) (r : Resolution)
    (hi : i ∈ ((written.zipIdx position).foldl (Resolution.addParent t d heir) r).edges) :
    i ∈ r.edges ∨ ∃ name ∈ written, i.span = name.span := by
  induction written generalizing position r with
  | nil => exact .inl hi
  | cons name written ih =>
    rw [List.zipIdx_cons, List.foldl_cons] at hi
    rcases ih _ _ hi with hi | ⟨name', hname', hspan⟩
    · have hstep : i ∈ r.edges ∨ i.span = name.span := by
        simp only [Resolution.addParent] at hi
        split at hi
        · exact .inl hi
        · split at hi <;>
          · rcases List.mem_append.mp hi with hi | hi
            · exact .inl hi
            · rw [List.mem_singleton.mp hi]
              exact .inr rfl
      rcases hstep with hi | hspan
      · exact .inl hi
      · exact .inr ⟨name, List.mem_cons_self .., hspan⟩
    · exact .inr ⟨name', List.mem_cons_of_mem _ hname', hspan⟩

theorem mem_edges_addMarkers (markers : List String) (r : Resolution)
    (hi : i ∈ (markers.foldl (Resolution.addMarker t d heir) r).edges) :
    i ∈ r.edges ∨ i.span = d.signature := by
  induction markers generalizing r with
  | nil => exact .inl hi
  | cons marker markers ih =>
    rcases ih _ hi with hi | hspan
    · unfold Resolution.addMarker at hi
      split at hi
      · split at hi
        · exact .inl hi
        · rcases List.mem_append.mp hi with hi | hi
          · exact .inl hi
          · rw [List.mem_singleton.mp hi]
            exact .inr rfl
      · exact .inl hi
    · exact .inr hspan

theorem edge_mem_spans (hi : i ∈ (ofTypeDef t d heir).edges) : i.span ∈ d.spans := by
  have hparents {name : Ident} (hname : name ∈ d.parents.map fun p => p.type.name) :
      name.span ∈ d.spans := by
    obtain ⟨p, hp, rfl⟩ := List.mem_map.mp hname
    exact TypeDef.parent_mem_spans hp
  have hwritten (hi : i ∈ (((d.parents.map fun p => p.type.name).zipIdx 0).foldl
      (Resolution.addParent t d heir) ⟨none, [], [], []⟩).edges) : i.span ∈ d.spans := by
    rcases mem_edges_addParents _ _ _ hi with hi | ⟨name, hname, hspan⟩
    · cases hi
    · exact hspan ▸ hparents hname
  unfold ofTypeDef at hi
  dsimp only at hi
  split at hi
  · rcases mem_edges_addMarkers _ _ hi with hi | hspan
    · exact hwritten hi
    · exact hspan ▸ d.signature_mem_spans
  · exact hwritten hi

end Resolution

/-- A problem that concerns one of the definitions which do not stand for themselves. -/
def Diagnostic.ConcernsHeirs (ds : List TypeDef) (e : Diagnostic) : Prop :=
  ∃ d ∈ ds, ¬ d.Independent ∧ e.Concerns ds d

namespace Analysis

variable {a : Analysis}

theorem concerns_of_mem_unresolvedParents (he : e ∈ a.unresolvedParents ds) :
    e.ConcernsHeirs ds := by
  obtain ⟨p, hp, he⟩ := List.mem_flatMap.mp he
  rw [Resolution.diagnostics_ofTypeDef] at he
  obtain ⟨name, hname, hsome⟩ := List.mem_filterMap.mp he
  obtain ⟨parent, hparent, rfl⟩ := List.mem_map.mp hname
  refine ⟨p.1, mem_of_numbered hp, fun hind => ?_, ?_⟩
  · have hnone := (List.append_eq_nil_iff.mp hind.supertypes).1
    rw [List.map_eq_nil_iff.mp hnone] at hparent
    cases hparent
  · unfold Resolution.unresolved? at hsome
    split at hsome
    · cases hsome
      exact ⟨TypeDef.parent_mem_spans hparent, by simp [Diagnostic.boundNotes]⟩
    · cases hsome

theorem exists_of_mem_resolvedEdges {i : Inheritance} (hi : i ∈ a.resolvedEdges ds) :
    ∃ d ∈ ds, ¬ d.Independent ∧ i.span ∈ d.spans := by
  obtain ⟨p, hp, hi⟩ := List.mem_flatMap.mp hi
  refine ⟨p.1, mem_of_numbered hp, fun hind => ?_, Resolution.edge_mem_spans hi⟩
  have hcovers := Resolution.covers_ofTypeDef a.symbols p.1 p.2
  obtain ⟨name, hname, -⟩ := (hcovers.denoted _).mp ((hcovers.parents _).mp ⟨i, hi, rfl⟩)
  rw [hind.supertypes] at hname
  cases hname

theorem exists_of_mem_inheritanceNotes {first : Ident} {names : List Ident} {n : Span × String}
    (hn : n ∈ Diagnostic.inheritanceNotes first names) : ∃ name ∈ names, n.1 = name.span := by
  induction names with
  | nil => cases hn
  | cons name names ih =>
    rcases List.mem_cons.mp hn with rfl | hn
    · exact ⟨name, List.mem_cons_self .., rfl⟩
    · obtain ⟨name', hname', hspan⟩ := ih hn
      exact ⟨name', List.mem_cons_of_mem _ hname', hspan⟩

theorem concerns_of_reports {t : SymbolTable} {cycle : List ClassId}
    (he : Untangling.Reports ⟨t, a.resolvedEdges ds, [], []⟩ cycle e) : e.ConcernsHeirs ds := by
  obtain ⟨first, rest, rfl, hnames⟩ := he
  have hsites : ∀ name ∈ first :: rest, ∃ d ∈ ds, ¬ d.Independent ∧ name.span ∈ d.spans := by
    intro name hname
    obtain ⟨link, -, -, hedge⟩ := exists_mem_of_forall₂ hnames hname
    exact exists_of_mem_resolvedEdges hedge
  obtain ⟨d, hd, hind, hspan⟩ := hsites first (List.mem_cons_self ..)
  refine ⟨d, hd, hind, hspan, fun n hn => ?_⟩
  obtain ⟨name, hname, heq⟩ := exists_of_mem_inheritanceNotes hn
  obtain ⟨d', hd', -, hspan'⟩ := hsites name (List.mem_cons_of_mem _ hname)
  exact ⟨d', hd', heq ▸ hspan'⟩

/-! ### Initializers and bodies -/

theorem concerns_of_mem_missingInitializers (he : e ∈ missingInitializers ds) :
    e.ConcernsHeirs ds := by
  obtain ⟨d, hd, he⟩ := List.mem_flatMap.mp he
  obtain ⟨f, hf, rfl⟩ := List.mem_map.mp he
  obtain ⟨hfield, hbare⟩ := List.mem_filter.mp hf
  refine ⟨d, hd, fun hind => ?_, ?_, by simp [Diagnostic.boundNotes]⟩
  · rw [hind.initialized f hfield] at hbare
    cases hbare
  · obtain ⟨member, hmember, hsome⟩ := List.mem_filterMap.mp hfield
    cases member with
    | method m => cases hsome
    | field g =>
      cases hsome
      exact TypeDef.field_mem_spans hmember

theorem method_mem_spans {m : Method} (hm : m ∈ d.methods) : m.name.span ∈ d.spans := by
  obtain ⟨member, hmember, hsome⟩ := List.mem_filterMap.mp hm
  cases member with
  | field f => cases hsome
  | method m' =>
    cases hsome
    exact TypeDef.method_mem_spans hmember

theorem foldl_accept_subset (earlier xs : List Declaration) :
    xs.foldl Declaration.accept earlier ⊆ earlier ++ xs := by
  induction xs generalizing earlier with
  | nil => simp
  | cons x xs ih =>
    intro y hy
    rcases List.mem_append.mp (ih _ hy) with hy | hy
    · rcases List.mem_append.mp (accept_subset earlier x hy) with hy | hy
      · exact List.mem_append_left _ hy
      · exact List.mem_append_right _ (List.mem_cons.mpr (.inl (List.mem_singleton.mp hy)))
    · exact List.mem_append_right _ (List.mem_cons_of_mem _ hy)

theorem mem_methods_of_accepted {m : Method} (hm : .member (.method m) ∈ d.accepted) :
    m ∈ d.methods := by
  have hdeclared : .member (.method m) ∈ d.declarations := by
    simpa using foldl_accept_subset [] d.declarations hm
  rcases mem_of_mem_declarations hdeclared with ⟨p, -, b, heq⟩ | ⟨member, hmember, heq⟩
  · cases heq
  · cases heq
    exact List.mem_filterMap.mpr ⟨_, hmember, rfl⟩

theorem eq_of_mem_chain {t : SymbolTable} {id c : ClassId} (hnone : ∀ p, ¬ t.Inherits id p)
    (hc : c ∈ t.chain id) : c = .root ∨ c = id := by
  rcases List.mem_append.mp hc with hc | hc
  · obtain ⟨p, hp, -, hpath⟩ := (mem_explore_iff _).mp hc
    have hid : p = id := by
      split at hp
      · cases hp
      · exact List.mem_singleton.mp hp
    subst hid
    rcases hpath.cases_head with heq | ⟨q, hq, -⟩
    · exact .inr heq.symm
    · exact absurd (SymbolTable.mem_searchedParents.mp hq.1).1 (hnone q)
  · exact .inl (List.mem_singleton.mp hc)

section Bodies

variable {t : SymbolTable} {p : TypeDef × ClassId}

theorem concerns_of_mem_unimplemented (hs : Scopes ds t) (hsize : t.classes.size = ds.length + 1)
    (hp : p ∈ numbered ds)
    (hnone : p.1.supertypeNames = [] → ∀ c, ¬ t.Inherits p.2 c) (he : e ∈ unimplemented t p) :
    e.ConcernsHeirs ds := by
  obtain ⟨hlocation, q, hq, hchain, m, hm, habstract, hnotes⟩ :=
    hs.site_of_mem_unimplemented hsize he
  have hmethod := mem_methods_of_accepted hm
  refine ⟨p.1, mem_of_numbered hp, fun hind => ?_, ?_, fun n hn => ?_⟩
  · have hcomplete : ¬ p.1.MayBeIncomplete := by
      intro hmay
      rw [unimplemented, if_pos hmay] at he
      cases he
    rcases eq_of_mem_chain (hnone hind.supertypes) hchain with hroot | hself
    · exact ne_root_of_numbered hq hroot
    · have heq : q = p := List.inj_on_of_nodup_map (nodup_numbered ds) hq hp hself
      rw [heq] at hmethod
      have hbody := hind.complete.resolve_left hcomplete m hmethod
      rw [habstract] at hbody
      cases hbody
  · rw [hlocation]
    exact p.1.name_mem_spans
  · rw [hnotes, List.mem_singleton] at hn
    rw [hn]
    exact ⟨q.1, mem_of_numbered hq, method_mem_spans hmethod⟩

theorem concerns_of_mem_missingBody (hdecl : (t.classInfo p.2).toClassDecl = p.1.decl)
    (hp : p ∈ numbered ds) {m : Method} (hm : m ∈ p.1.methods)
    (he : e ∈ (m.info p.2).missingBody t) : e.ConcernsHeirs ds := by
  have hsite : (t.classInfo p.2).site = some p.1.name.span := congrArg ClassDecl.site hdecl
  have hd := mem_of_numbered hp
  unfold MethodInfo.missingBody at he
  dsimp only at he
  split at he
  next hlacks =>
    obtain ⟨habstract, hcomplete⟩ := Bool.and_eq_true_iff.mp hlacks
    rw [List.mem_singleton.mp he]
    refine ⟨p.1, hd, fun hind => ?_, method_mem_spans hm, fun n hn => ?_⟩
    · have hmay : ¬ p.1.MayBeIncomplete := by
        intro hmay
        rw [Method.info, (mayBeIncomplete_iff hdecl).mpr hmay] at hcomplete
        cases hcomplete
      have hbody := hind.complete.resolve_left hmay m hm
      exact Bool.noConfusion (habstract.symm.trans hbody)
    · obtain ⟨s, hs, rfl⟩ := List.mem_map.mp hn
      have hspan : some p.1.name.span = some s := hsite.symm.trans (Option.mem_toList.mp hs)
      cases hspan
      exact ⟨p.1, hd, p.1.name_mem_spans⟩
  next => cases he

end Bodies

/-- What is reported behind the declarations of parsed units concerns definitions that do not stand
for themselves. -/
theorem concerns_of_mem_analyze {units : List Program}
    (htypes : ((units.flatMap (·.definitions)).map (·.signature)).Nodup)
    (hmethods : (((units.flatMap (·.definitions)).flatMap (·.methods)).map (·.signature)).Nodup)
    (ha : analyze units = .ok a) (he : e ∈ a.diagnostics) :
    e ∈ (Analysis.initial.collectDeclarations units).diagnostics ∨
      e.ConcernsHeirs (units.flatMap (·.definitions)) := by
  have h := Analysis.collected units
  obtain ⟨cycles, reports, hu⟩ := untangled_resolvedUnits htypes
  obtain ⟨a', ha', -, hdiagnostics⟩ := analyze_reports htypes hmethods
  obtain rfl := Except.ok.inj (ha.symm.trans ha')
  rw [hdiagnostics, hu.reported.1, List.mem_append, List.mem_append, List.mem_append] at he
  rcases he with ((he | he) | he) | he
  · rcases List.mem_append.mp he with he | he
    · exact .inl he
    · exact .inr (concerns_of_mem_unresolvedParents he)
  · obtain ⟨cycle, -, hreports⟩ := exists_mem_of_forall₂ hu.reported.2 he
    exact .inr (concerns_of_reports hreports)
  · exact .inr (concerns_of_mem_missingInitializers he)
  · refine .inr ?_
    have hdecl := h.decl_final hu
    obtain ⟨p, hp, he⟩ := List.mem_flatMap.mp he
    rcases List.mem_append.mp he with he | he
    · rw [obligations_type (hdecl p hp)] at he
      refine concerns_of_mem_unimplemented ((scopes_collectDeclarations units).of_untangled hu)
        (h.size_final hu) hp (fun hnone c hc => ?_) he
      rw [SymbolTable.Inherits, hu.kept, ClassInfo.mem_directSupertypes_without] at hc
      obtain ⟨q, hq, heq, name, hname, -⟩ := h.inherits_resolved.mp hc.1
      rw [List.inj_on_of_nodup_map (nodup_numbered _) hq hp heq, hnone] at hname
      cases hname
    · obtain ⟨m, hm, he⟩ := List.mem_flatMap.mp he
      exact concerns_of_mem_missingBody (hdecl p hp) hp hm he

end Analysis

theorem concerns_user {noPrelude : Bool} {source : String} {program : Program} {a : Analysis}
    (hprogram : Program.ofText .user source = .ok program)
    (ha : analyze (preludeUnits noPrelude ++ [program]) = .ok a) (he : e ∈ a.diagnostics) :
    ∃ d ∈ program.definitions,
      e.Concerns ((preludeUnits noPrelude).flatMap (·.definitions) ++ program.definitions) d := by
  have hfiles := nodup_files_sourceTexts noPrelude source
  have hparsed := parseAll_sourceTexts noPrelude hprogram
  have hplain : ∀ d ∈ (preludeUnits noPrelude).flatMap (·.definitions),
      d.Independent ∧ d.modifiers.spanOf? .abstract = none := by
    intro d hd
    obtain ⟨p, hp, hd⟩ := exists_of_mem_preludeUnits hd
    exact prelude_plain hp d hd
  have hds : (preludeUnits noPrelude ++ [program]).flatMap (·.definitions) =
      (preludeUnits noPrelude).flatMap (·.definitions) ++ program.definitions := by
    simp
  rcases Analysis.concerns_of_mem_analyze (nodup_signatures hfiles hparsed)
    (nodup_methodSignatures hfiles hparsed) ha he with he | ⟨d, hd, hheir, hconcerns⟩
  · have hcollected := Analysis.Collected.initial.foldl
      ((preludeUnits noPrelude).flatMap (·.definitions))
    have hroot := Analysis.Collected.initial.site_root_foldl rfl
      ((preludeUnits noPrelude).flatMap (·.definitions))
    have hquiet := Analysis.diagnostics_foldl_of_independent (nodup_preludeNames noPrelude) hplain
    change e ∈ (((preludeUnits noPrelude ++ [program]).flatMap (·.definitions)).foldl
      Analysis.declareType .initial).diagnostics at he
    rw [hds, List.foldl_append] at he
    rcases hcollected.concerns_of_mem_foldl hroot _ he with he | ⟨d, hd, hconcerns, -⟩
    · rw [hquiet] at he
      cases he
    · exact ⟨d, hd, hconcerns⟩
  · rw [hds] at hd hconcerns
    rcases List.mem_append.mp hd with hd | hd
    · exact absurd (hplain d hd).1 hheir
    · exact ⟨d, hd, hconcerns⟩

end Mixin
