import Mixin.Proofs.Analysis.Unimplemented
import Mixin.Proofs.Symbol.Renaming

/-!
# The order of definitions

If definitions with different names are put into another order, their types get other identifiers
and nothing else changes: the tables that are left when supertypes are resolved rename each other
(`Collected.renames_resolved`). So of each definition the same is reported.
-/

namespace Mixin

open Relation (TransGen)
open SymbolTable (Renames classInfo_eq_default_of_notMem counterpart)

/-! ### Supertypes -/

namespace Resolution

/-- The same supertypes under other identifiers. -/
structure Renamed (ρ : ClassId → ClassId) (r r' : Resolution) : Prop where
  superclass : r'.superclass = r.superclass.map ρ
  traits : r'.traits = r.traits.map ρ

variable {ρ : ClassId → ClassId} {t t' : SymbolTable}

section Steps

variable {d : TypeDef} {heir heir' : ClassId} {r r' : Resolution}

theorem Renamed.addParent (h : Renamed ρ r r')
    (hlookup : ∀ name, t'.lookup? name = (t.lookup? name).map ρ)
    (hkind : ∀ c, (t'.classInfo (ρ c)).kind = (t.classInfo c).kind) (parent : Ident × Nat) :
    Renamed ρ (r.addParent t d heir parent) (r'.addParent t' d heir' parent) := by
  obtain ⟨name, position⟩ := parent
  unfold Resolution.addParent
  dsimp only
  rw [hlookup]
  cases t.lookup? name.text with
  | none => exact ⟨h.superclass, h.traits⟩
  | some id =>
    simp only [Option.map_some, hkind]
    split
    · exact ⟨rfl, h.traits⟩
    · refine ⟨h.superclass, ?_⟩
      rw [h.traits, List.map_append]
      rfl

theorem Renamed.addMarker (h : Renamed ρ r r') (hρ : Function.Injective ρ)
    (hlookup : ∀ name, t'.lookup? name = (t.lookup? name).map ρ) (marker : String) :
    Renamed ρ (r.addMarker t d heir marker) (r'.addMarker t' d heir' marker) := by
  unfold Resolution.addMarker
  rw [hlookup]
  cases t.lookup? marker with
  | none => exact h
  | some id =>
    simp only [Option.map_some, h.traits, List.mem_map_of_injective hρ]
    split
    · exact h
    · refine ⟨h.superclass, ?_⟩
      rw [List.map_append]
      rfl

theorem Renamed.foldl {α : Type} {step step' : Resolution → α → Resolution}
    (hstep : ∀ {r r'} x, Renamed ρ r r' → Renamed ρ (step r x) (step' r' x)) (xs : List α)
    (h : Renamed ρ r r') : Renamed ρ (xs.foldl step r) (xs.foldl step' r') := by
  induction xs generalizing r r' with
  | nil => exact h
  | cons x xs ih => exact ih (hstep x h)

end Steps

theorem renamed_ofTypeDef (hρ : Function.Injective ρ)
    (hlookup : ∀ name, t'.lookup? name = (t.lookup? name).map ρ)
    (hkind : ∀ c, (t'.classInfo (ρ c)).kind = (t.classInfo c).kind) (d : TypeDef)
    (heir heir' : ClassId) : Renamed ρ (ofTypeDef t d heir) (ofTypeDef t' d heir') := by
  have hnothing : Renamed ρ ⟨none, [], [], []⟩ ⟨none, [], [], []⟩ := ⟨rfl, rfl⟩
  have hwritten (written : List (Ident × Nat)) :
      Renamed ρ (written.foldl (addParent t d heir) ⟨none, [], [], []⟩)
        (written.foldl (addParent t' d heir') ⟨none, [], [], []⟩) :=
    hnothing.foldl (fun parent h => h.addParent hlookup hkind parent) written
  unfold ofTypeDef
  dsimp only
  split
  · exact (hwritten _).foldl (fun marker h => h.addMarker hρ hlookup marker) caseMarkers
  · exact hwritten _

end Resolution

/-! ### Tables -/

theorem Declaration.info_renamed (x : Declaration) (ρ : ClassId → ClassId) (owner : ClassId) :
    x.info (ρ owner) = (x.info owner).renamed ρ := by
  cases x with
  | parameter p binding => rfl
  | member m => cases m <;> rfl

namespace Analysis

theorem classInfo_root (units : List Program) :
    (Analysis.initial.collectDeclarations units).symbols.classInfo .root =
      ⟨SymbolTable.rootDecl, [], none, []⟩ := by
  have hinitial : Collected [] Analysis.initial := .initial
  exact hinitial.classInfo_root_foldl _

theorem classInfo_resolved_root (a : Analysis) (ds : List TypeDef) :
    (a.resolved ds).symbols.classInfo .root = a.symbols.classInfo .root := by
  refine classInfo_foldl_assign _ _ fun hmem => ?_
  obtain ⟨p, hp, hroot⟩ := List.mem_map.mp hmem
  exact ne_root_of_numbered hp hroot

namespace Collected

variable {ds ds' : List TypeDef} {a a' : Analysis}

theorem perm_names (h : Collected ds a) (h' : Collected ds' a') (hperm : ds.Perm ds') :
    a.symbols.names.Perm a'.symbols.names := by
  rw [h.names, h'.names]
  exact (hperm.map _).cons _

theorem root_mem (h : Collected ds a) : ClassId.root ∈ a.symbols.classIds := by
  rw [SymbolTable.mem_classIds, h.size]
  exact Nat.succ_pos _

theorem counterpart_root (h : Collected ds a) (h' : Collected ds' a') (hperm : ds.Perm ds')
    (hnames : ("Any" :: ds.map fun d => d.name.text).Nodup) :
    counterpart a.symbols a'.symbols .root = .root := by
  have hname : (a.symbols.classInfo .root).name = "Any" := by
    have hfirst := SymbolTable.names_getElem?_eq_name h.root_mem
    rw [h.names] at hfirst
    exact (Option.some.inj hfirst).symm
  have hnodup : a'.symbols.names.Nodup :=
    ((h.perm_names h' hperm).nodup_iff).mp (h.names ▸ hnames)
  have hfound := SymbolTable.lookup?_of_perm (h.perm_names h' hperm) h.root_mem
  have hroot : a'.symbols.lookup? "Any" = some ⟨0⟩ :=
    SymbolTable.lookup?_eq_some_of_nodup hnodup (by rw [h'.names]; rfl)
  rw [hname, hroot] at hfound
  exact (Option.some.inj hfound).symm

theorem counterpart_numbered (h : Collected ds a) (h' : Collected ds' a') (hperm : ds.Perm ds')
    (hnames : ("Any" :: ds.map fun d => d.name.text).Nodup) {p : TypeDef × ClassId}
    (hp : p ∈ numbered ds) : (p.1, counterpart a.symbols a'.symbols p.2) ∈ numbered ds' := by
  obtain ⟨id, hid⟩ := exists_numbered (hperm.mem_iff.mp (mem_of_numbered hp))
  have hnames' : ("Any" :: ds'.map fun d => d.name.text).Nodup :=
    (((hperm.map _).cons _).nodup_iff).mp hnames
  have hmem : p.2 ∈ a.symbols.classIds := SymbolTable.mem_classIds.mpr (h.index_lt hp)
  have hname : (a.symbols.classInfo p.2).name = p.1.name.text :=
    congrArg ClassDecl.name (h.decl p hp)
  have hfound := SymbolTable.lookup?_of_perm (h.perm_names h' hperm) hmem
  rw [hname, h'.lookup?_name hnames' hid] at hfound
  rwa [← Option.some.inj hfound]

theorem frame_resolved (h : Collected ds a) (c : ClassId) :
    ((a.resolved ds).symbols.classInfo c).toClassDecl = (a.symbols.classInfo c).toClassDecl ∧
      (a.resolved ds).symbols.memberInfos c = a.symbols.memberInfos c := by
  have hfields := fields_foldl_assign (t := a.symbols) (numbered ds) a.symbols
  have hmethods := (frame_foldl_assign (t := a.symbols) (numbered ds) a.symbols).2.2
  have hmembers : ((a.resolved ds).symbols.classInfo c).members = (a.symbols.classInfo c).members →
      (a.resolved ds).symbols.memberInfos c = a.symbols.memberInfos c :=
    SymbolTable.memberInfos_of_members (hfields ▸ List.prefix_refl _)
      (hmethods ▸ List.prefix_refl _) h.known
  by_cases hc : c ∈ (numbered ds).map (·.2)
  · obtain ⟨p, hp, rfl⟩ := List.mem_map.mp hc
    rw [h.classInfo_resolved hp] at hmembers ⊢
    exact ⟨rfl, hmembers rfl⟩
  · have hkept := classInfo_foldl_assign (t := a.symbols) (numbered ds) a.symbols hc
    exact ⟨congrArg ClassInfo.toClassDecl hkept, hmembers (congrArg ClassInfo.members hkept)⟩

section Perm

variable (h : Collected ds a) (h' : Collected ds' a') (hperm : ds.Perm ds')
  (hnames : ("Any" :: ds.map fun d => d.name.text).Nodup)

include h h' hperm hnames

theorem memberInfos_counterpart (hs : Scopes ds a.symbols) (hs' : Scopes ds' a'.symbols)
    (c : ClassId) :
    a'.symbols.memberInfos (counterpart a.symbols a'.symbols c) =
      (a.symbols.memberInfos c).map (·.renamed (counterpart a.symbols a'.symbols)) := by
  rcases cases_id h.size c with rfl | ⟨p, hp, rfl⟩ | hc
  · rw [h.counterpart_root h' hperm hnames, hs.root, hs'.root]
    rfl
  · rw [hs.types p hp, hs'.types _ (h.counterpart_numbered h' hperm hnames hp), List.map_map]
    exact List.map_congr_left fun x _ => x.info_renamed (counterpart a.symbols a'.symbols) p.2
  · have hc' := mt (SymbolTable.counterpart_mem_iff (h.perm_names h' hperm)).mp hc
    rw [SymbolTable.memberInfos, SymbolTable.memberInfos, classInfo_eq_default_of_notMem hc,
      classInfo_eq_default_of_notMem hc']
    rfl

variable (hroot : a'.symbols.classInfo .root = a.symbols.classInfo .root)

include hroot

theorem decl_counterpart (c : ClassId) :
    (a'.symbols.classInfo (counterpart a.symbols a'.symbols c)).toClassDecl =
      (a.symbols.classInfo c).toClassDecl := by
  rcases cases_id h.size c with rfl | ⟨p, hp, rfl⟩ | hc
  · rw [h.counterpart_root h' hperm hnames, hroot]
  · rw [h.decl p hp]
    exact h'.decl _ (h.counterpart_numbered h' hperm hnames hp)
  · have hc' := mt (SymbolTable.counterpart_mem_iff (h.perm_names h' hperm)).mp hc
    rw [classInfo_eq_default_of_notMem hc, classInfo_eq_default_of_notMem hc']

theorem supertypes_counterpart (c : ClassId) :
    Resolution.Renamed (counterpart a.symbols a'.symbols)
      ⟨((a.resolved ds).symbols.classInfo c).superclass,
        ((a.resolved ds).symbols.classInfo c).traits, [], []⟩
      ⟨((a'.resolved ds').symbols.classInfo (counterpart a.symbols a'.symbols c)).superclass,
        ((a'.resolved ds').symbols.classInfo (counterpart a.symbols a'.symbols c)).traits,
        [], []⟩ := by
  have hpermNames := h.perm_names h' hperm
  rcases cases_id h.size c with rfl | ⟨p, hp, rfl⟩ | hc
  · rw [h.counterpart_root h' hperm hnames, classInfo_resolved_root, classInfo_resolved_root,
      hroot, (h.plain _).1, (h.plain _).2]
    exact ⟨rfl, rfl⟩
  · have hrenamed := Resolution.renamed_ofTypeDef
      (SymbolTable.counterpart_injective (h.names ▸ hnames) hpermNames)
      (SymbolTable.lookup?_eq_map hpermNames)
      (fun c => congrArg ClassDecl.kind (h.decl_counterpart h' hperm hnames hroot c)) p.1 p.2
      (counterpart a.symbols a'.symbols p.2)
    rw [h.classInfo_resolved hp,
      h'.classInfo_resolved (h.counterpart_numbered h' hperm hnames hp)]
    exact ⟨hrenamed.superclass, hrenamed.traits⟩
  · have hc' := mt (SymbolTable.counterpart_mem_iff hpermNames).mp hc
    rw [← classIds_assigned a (numbered ds)] at hc
    rw [← classIds_assigned a' (numbered ds')] at hc'
    rw [classInfo_eq_default_of_notMem hc, classInfo_eq_default_of_notMem hc']
    exact ⟨rfl, rfl⟩

/-- Definitions that are put into another order are resolved alike, up to the identifiers. -/
theorem renames_resolved (hs : Scopes ds a.symbols) (hs' : Scopes ds' a'.symbols) :
    Renames (counterpart a.symbols a'.symbols) (a.resolved ds).symbols
      (a'.resolved ds').symbols where
  injective := SymbolTable.counterpart_injective (h.names ▸ hnames) (h.perm_names h' hperm)
  root := h.counterpart_root h' hperm hnames
  ids := by
    rw [classIds_assigned, classIds_assigned]
    exact SymbolTable.perm_counterpart (h.names ▸ hnames) (h.perm_names h' hperm)
  decl := by
    intro c
    rw [(h.frame_resolved c).1, (h'.frame_resolved _).1]
    exact h.decl_counterpart h' hperm hnames hroot c
  superclass := fun c => (h.supertypes_counterpart h' hperm hnames hroot c).superclass
  traits := fun c => (h.supertypes_counterpart h' hperm hnames hroot c).traits
  members := by
    intro c
    rw [(h.frame_resolved c).2, (h'.frame_resolved _).2]
    exact h.memberInfos_counterpart h' hperm hnames hs hs' c

end Perm

end Collected

end Analysis

/-! ### What is reported of a definition -/

/-- What a pass reports of a definition, if the program has the types of `t` and no circles. -/
def Pass.reports (t : SymbolTable) : Pass → TypeDef → List Diagnostic
  | declarations, d => d.declarationReports
  | supertypes, d => (d.parents.map fun p => p.type.name).filterMap (Resolution.unresolved? t d)
  | initializers, d =>
    d.bareFields.map fun f => .missingInitializer f.binding f.name f.type d.name.text
  | obligations, d =>
    let id := (t.lookup? d.name.text).getD .root
    unimplemented t (d, id) ++ d.methods.flatMap fun m => (m.info id).missingBody t

namespace Analysis

namespace Collected

variable {ds : List TypeDef} {a : Analysis}

theorem lookup?_resolved (h : Collected ds a) :
    (a.resolved ds).symbols.lookup? = a.symbols.lookup? := by
  have hnames : (a.resolved ds).symbols.names = a.symbols.names := by
    rw [SymbolTable.names_eq_map, SymbolTable.names_eq_map, classIds_assigned]
    exact List.map_congr_left fun c _ => congrArg ClassDecl.name (h.frame_resolved c).1
  funext name
  rw [SymbolTable.lookup?_eq_findIdx?, SymbolTable.lookup?_eq_findIdx?, hnames]

theorem unresolvedParents_eq (h : Collected ds a) :
    a.unresolvedParents ds = ds.flatMap (Pass.supertypes.reports (a.resolved ds).symbols) := by
  refine flatMap_numbered fun p _ => ?_
  rw [Resolution.diagnostics_ofTypeDef]
  refine List.filterMap_congr fun name _ => ?_
  rw [Resolution.unresolved?, Resolution.unresolved?, h.lookup?_resolved]

theorem missingBodies_eq (h : Collected ds a)
    (hnames : ("Any" :: ds.map fun d => d.name.text).Nodup) :
    missingBodies (a.resolved ds).symbols ds =
      ds.flatMap (Pass.obligations.reports (a.resolved ds).symbols) := by
  refine flatMap_numbered fun p hp => ?_
  have hdecl : ((a.resolved ds).symbols.classInfo p.2).toClassDecl = p.1.decl :=
    (h.frame_resolved p.2).1.trans (h.decl p hp)
  rw [obligations_type hdecl, Pass.reports, h.lookup?_resolved, h.lookup?_name hnames hp]
  rfl

end Collected

variable {units : List Program}
  (htypes : ((units.flatMap (·.definitions)).map (·.signature)).Nodup)
  (hnames : ("Any" :: (units.flatMap (·.definitions)).map fun d => d.name.text).Nodup)
  (hacyclic : ∀ d ∈ units.flatMap (·.definitions),
    ¬ TransGen (TypeDef.Inherits (units.flatMap (·.definitions))) d d)

include htypes hnames hacyclic

theorem resolvedUnits_of_acyclic :
    let resolved :=
      (initial.collectDeclarations units).resolved (units.flatMap (·.definitions))
    (resolvedUnits units).symbols = resolved.symbols ∧
      (resolvedUnits units).diagnostics = resolved.diagnostics := by
  have h := collected units
  obtain ⟨cycles, circles, hu⟩ := untangled_resolvedUnits htypes
  obtain rfl : circles = [] := by
    by_contra hcircles
    have hcircle := (hu.circle_iff h.inStep_resolved).mp hcircles
    obtain ⟨d, hd, hcircle⟩ := (h.exists_circle_iff hnames).mp hcircle
    exact hacyclic d hd hcircle
  exact ⟨hu.symbols_eq, hu.reported.1.trans (List.append_nil _)⟩

theorem exists_runs_reports
    (hmethods : (((units.flatMap (·.definitions)).flatMap (·.methods)).map (·.signature)).Nodup) :
    ∃ a, Pass.Runs units initial (Pass.all.map fun pass =>
        (pass, (units.flatMap (·.definitions)).flatMap (pass.reports a.symbols))) a ∧
      a.symbols = ((initial.collectDeclarations units).resolved
        (units.flatMap (·.definitions))).symbols := by
  have h := collected units
  obtain ⟨hsymbols, hdiagnostics⟩ := resolvedUnits_of_acyclic htypes hnames hacyclic
  have hreports : (resolvedUnits units).diagnostics =
      (initial.collectDeclarations units).diagnostics ++
        (initial.collectDeclarations units).unresolvedParents (units.flatMap (·.definitions)) :=
    hdiagnostics
  obtain ⟨a, hruns, ha⟩ := exists_runs hreports
  rw [knownMissingBodies_eq _ htypes hmethods, hsymbols] at hruns
  rw [hsymbols] at ha
  rw [diagnostics_collectDeclarations hnames, h.unresolvedParents_eq, h.missingBodies_eq hnames,
    ← ha] at hruns
  exact ⟨a, hruns, ha⟩

end Analysis

section Renamed

open Analysis

variable {ρ : ClassId → ClassId} {t t' : SymbolTable}

theorem lacking?_renamed (hρ : Function.Injective ρ) (c : ClassId) (ms : List MethodInfo)
    (s : Signature) :
    lacking? (ρ c) (ms.map (·.renamed ρ)) s = (lacking? c ms s).map (·.renamed ρ) := by
  have hfirst : (ms.map (·.renamed ρ)).find? (fun m => m.isAbstract && m.signature == s) =
      (ms.find? fun m => m.isAbstract && m.signature == s).map (·.renamed ρ) :=
    List.find?_map ..
  have hbody : (∃ m ∈ ms.map (·.renamed ρ), m.signature = s ∧ m.isAbstract = false) ↔
      ∃ m ∈ ms, m.signature = s ∧ m.isAbstract = false := by
    simp only [List.mem_map, exists_exists_and_eq_and]
    rfl
  rw [lacking?, lacking?, hfirst]
  cases ms.find? fun m => m.isAbstract && m.signature == s with
  | none => rfl
  | some m =>
    have howner : (m.renamed ρ).owner ≠ ρ c ↔ m.owner ≠ c := hρ.ne_iff
    simp only [Option.map_some, Option.filter_some, hbody, howner]
    split <;> rfl

theorem SymbolTable.Renames.unimplemented (h : Renames ρ t t') (d : TypeDef) (c : ClassId) :
    Mixin.unimplemented t' (d, ρ c) = Mixin.unimplemented t (d, c) := by
  unfold Mixin.unimplemented
  split
  · rfl
  · dsimp only
    have hsignatures : bodilessSignatures ((t.chainInfos c).map (·.renamed ρ)) =
        bodilessSignatures (t.chainInfos c) := by
      rw [bodilessSignatures, bodilessSignatures, List.filter_map, List.map_map]
      rfl
    rw [h.chainInfos, hsignatures]
    simp only [lacking?_renamed h.injective]
    rw [← List.map_filterMap, List.map_map]
    refine List.map_congr_left fun m _ => ?_
    have howner : (t'.classInfo (m.renamed ρ).owner).name = (t.classInfo m.owner).name :=
      h.name m.owner
    simp only [Function.comp_apply, howner]
    rfl

theorem SymbolTable.Renames.missingBody (h : Renames ρ t t') (m : MethodInfo) :
    (m.renamed ρ).missingBody t' = m.missingBody t := by
  have howner : (t'.classInfo (m.renamed ρ).owner).toClassDecl =
      (t.classInfo m.owner).toClassDecl := h.decl m.owner
  unfold MethodInfo.missingBody
  dsimp only
  rw [ClassInfo.mayBeIncomplete, ClassInfo.sketch, howner]
  rfl

theorem Pass.reports_renamed (h : Renames ρ t t')
    (hlookup : ∀ name, t'.lookup? name = (t.lookup? name).map ρ) (pass : Pass) :
    pass.reports t' = pass.reports t := by
  funext d
  cases pass with
  | declarations | initializers => rfl
  | supertypes =>
    refine List.filterMap_congr fun name _ => ?_
    rw [Resolution.unresolved?, Resolution.unresolved?, hlookup]
    cases t.lookup? name.text <;> rfl
  | obligations =>
    simp only [Pass.reports, hlookup, h.getD_root, h.unimplemented]
    refine congrArg _ (List.flatMap_congr fun m _ => ?_)
    exact h.missingBody (m.info _)

end Renamed

/-! ### Two orders -/

theorem TypeDef.inherits_of_perm {ds ds' : List TypeDef} (hperm : ds.Perm ds') :
    TypeDef.Inherits ds' = TypeDef.Inherits ds := by
  funext d e
  rw [TypeDef.Inherits, TypeDef.Inherits, hperm.mem_iff, hperm.mem_iff]

open Analysis in
/-- If definitions are put into another order, each pass goes through them in that order and reports
of each of them what it did before. -/
theorem exists_runs_of_perm {units units' : List Program}
    (hperm : (units.flatMap (·.definitions)).Perm (units'.flatMap (·.definitions)))
    (htypes : ((units.flatMap (·.definitions)).map (·.signature)).Nodup)
    (hmethods : (((units.flatMap (·.definitions)).flatMap (·.methods)).map (·.signature)).Nodup)
    (hnames : ("Any" :: (units.flatMap (·.definitions)).map fun d => d.name.text).Nodup)
    (hacyclic : ∀ d ∈ units.flatMap (·.definitions),
      ¬ TransGen (TypeDef.Inherits (units.flatMap (·.definitions))) d d) :
    ∃ a a' ρ,
      Pass.Runs units .initial (Pass.all.map fun pass =>
        (pass, (units.flatMap (·.definitions)).flatMap (pass.reports a.symbols))) a ∧
      Pass.Runs units' .initial (Pass.all.map fun pass =>
        (pass, (units'.flatMap (·.definitions)).flatMap (pass.reports a.symbols))) a' ∧
      Renames ρ a.symbols a'.symbols ∧
      ∀ name, a'.symbols.lookup? name = (a.symbols.lookup? name).map ρ := by
  have h := collected units
  have h' := collected units'
  have htypes' := ((hperm.map _).nodup_iff).mp htypes
  have hmethods' := (((hperm.flatMap_right _).map _).nodup_iff).mp hmethods
  have hnames' := (((hperm.map _).cons _).nodup_iff).mp hnames
  have hacyclic' : ∀ d ∈ units'.flatMap (·.definitions),
      ¬ TransGen (TypeDef.Inherits (units'.flatMap (·.definitions))) d d := by
    intro d hd
    rw [TypeDef.inherits_of_perm hperm]
    exact hacyclic d (hperm.mem_iff.mpr hd)
  obtain ⟨a, hruns, ha⟩ := exists_runs_reports htypes hnames hacyclic hmethods
  obtain ⟨a', hruns', ha'⟩ := exists_runs_reports htypes' hnames' hacyclic' hmethods'
  have hroot := (classInfo_root units').trans (classInfo_root units).symm
  have hrenames := h.renames_resolved h' hperm hnames hroot (scopes_collectDeclarations units)
    (scopes_collectDeclarations units')
  have hlookup := SymbolTable.lookup?_eq_map (h.perm_names h' hperm)
  rw [← h.lookup?_resolved, ← h'.lookup?_resolved, ← ha, ← ha'] at hlookup
  rw [← ha, ← ha'] at hrenames
  simp only [Pass.reports_renamed hrenames hlookup] at hruns'
  exact ⟨a, a', _, hruns, hruns', hrenames, hlookup⟩

end Mixin
