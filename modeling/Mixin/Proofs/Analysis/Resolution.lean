import Mixin.Proofs.Analysis.Declarations
import Mixin.Proofs.Analysis.Untangling
import Mixin.Proofs.Grammar.Places

/-!
# What resolving supertypes leaves

Resolving sets the supertypes of each type to what the names of its parents denote, and records the
same as edges. No type has a supertype without an edge; so the hierarchy that is left is the
resolved one without the links of the reported circles (`Untangled`). The two records agree if no
two definitions stand at the same place. Where two do, the registry takes the first one for the last
one: the edges of both are recorded for the last one, which keeps only its own supertypes.
-/

namespace Mixin

open Relation

/-! ### One definition -/

def TypeDef.parentNames (d : TypeDef) : List String := d.parents.map fun p => p.type.name.text

/-- The names from which a type inherits: those that are written, and those of the marker traits if
it is a case class or a case object. -/
def TypeDef.supertypeNames (d : TypeDef) : List String :=
  d.parentNames ++ if d.isCase then caseMarkers else []

/-- The name of a supertype denotes the type `parent`. -/
def TypeDef.Denotes (t : SymbolTable) (d : TypeDef) (parent : ClassId) : Prop :=
  ∃ name ∈ d.supertypeNames, t.lookup? name = some parent

namespace Resolution

variable {t : SymbolTable} {d : TypeDef} {heir : ClassId}

def supertypes (r : Resolution) : List ClassId := r.superclass.toList ++ r.traits

/-- What the names denote was resolved: the supertypes are the types that the names denote, and the
edges lead from the heir to them. -/
structure Covers (t : SymbolTable) (heir : ClassId) (names : List String) (r : Resolution) :
    Prop where
  heirs : ∀ e ∈ r.edges, e.heir = heir
  parents : ∀ p, (∃ e ∈ r.edges, e.parent = p) ↔ p ∈ r.supertypes
  denoted : ∀ p, p ∈ r.supertypes ↔ ∃ name ∈ names, t.lookup? name = some p

theorem covers_nothing : Covers t heir [] ⟨none, [], [], []⟩ :=
  ⟨by simp, by simp [supertypes], by simp [supertypes]⟩

section Covers

variable {r r' : Resolution} {names : List String} (h : Covers t heir names r)
include h

theorem Covers.add {id : ClassId} {name : String} (span : Span) (hid : t.lookup? name = some id)
    (hsupertypes : ∀ p, p ∈ r'.supertypes ↔ p ∈ r.supertypes ∨ p = id)
    (hedges : r'.edges = r.edges ++ [⟨heir, id, span⟩]) : Covers t heir (names ++ [name]) r' where
  heirs := by
    intro e he
    rw [hedges] at he
    rcases List.mem_append.mp he with he | he
    · exact h.heirs e he
    · rw [List.mem_singleton.mp he]
  parents := by
    intro p
    rw [hedges, hsupertypes, ← h.parents]
    constructor
    · rintro ⟨e, he, rfl⟩
      rcases List.mem_append.mp he with he | he
      · exact Or.inl ⟨e, he, rfl⟩
      · rw [List.mem_singleton.mp he]
        exact Or.inr rfl
    · rintro (⟨e, he, rfl⟩ | rfl)
      · exact ⟨e, List.mem_append_left _ he, rfl⟩
      · exact ⟨_, List.mem_append_right _ (List.mem_singleton_self _), rfl⟩
  denoted := by
    intro p
    simp only [hsupertypes, h.denoted, List.mem_append, List.mem_singleton, or_and_right, exists_or,
      exists_eq_left, hid, Option.some.injEq]
    rw [eq_comm (a := p)]

theorem Covers.skip {name : String} (hname : ∀ id, t.lookup? name = some id → id ∈ r.supertypes)
    (hsupertypes : r'.supertypes = r.supertypes) (hedges : r'.edges = r.edges) :
    Covers t heir (names ++ [name]) r' where
  heirs := hedges ▸ h.heirs
  parents := by
    intro p
    rw [hedges, hsupertypes]
    exact h.parents p
  denoted := by
    intro p
    simp only [hsupertypes, List.mem_append, List.mem_singleton, or_and_right, exists_or,
      exists_eq_left, ← h.denoted]
    exact ⟨Or.inl, fun hp => hp.elim id (hname p)⟩

theorem Covers.addParent (d : TypeDef) (name : Ident) {position : Nat}
    (hposition : position = 0 → r.superclass = none) :
    Covers t heir (names ++ [name.text]) (r.addParent t d heir (name, position)) := by
  cases hid : t.lookup? name.text with
  | none =>
    refine h.skip (fun id hid' => ?_) ?_ ?_
    · rw [hid] at hid'
      cases hid'
    · simp only [Resolution.addParent, hid, supertypes]
    · simp only [Resolution.addParent, hid]
  | some id =>
    -- Only the first parent can become the superclass, and finds none before it.
    by_cases hsuper : position = 0 ∧ (t.classInfo id).kind ≠ .trait
    · refine h.add name.span hid (fun p => ?_) ?_
      · simp only [Resolution.addParent, hid, if_pos hsuper, supertypes, hposition hsuper.1,
          List.mem_append, Option.mem_toList, Option.some.injEq, reduceCtorEq, false_or]
        rw [or_comm, eq_comm]
      · simp only [Resolution.addParent, hid, if_pos hsuper]
    · refine h.add name.span hid (fun p => ?_) ?_
      · simp only [Resolution.addParent, hid, if_neg hsuper, supertypes, List.mem_append,
          List.mem_singleton, or_assoc]
      · simp only [Resolution.addParent, hid, if_neg hsuper]

theorem Covers.addParents (d : TypeDef) (written : List Ident) {position : Nat}
    (hposition : position = 0 → r.superclass = none) :
    Covers t heir (names ++ written.map (·.text))
      ((written.zipIdx position).foldl (Resolution.addParent t d heir) r) := by
  induction written generalizing r names position with
  | nil => simpa using h
  | cons name written ih =>
    have hlater : position + 1 = 0 → (r.addParent t d heir (name, position)).superclass = none :=
      fun hzero => absurd hzero (Nat.succ_ne_zero position)
    have hrest := ih (h.addParent d name hposition) hlater
    simpa using hrest

theorem Covers.addMarker (d : TypeDef) (marker : String) :
    Covers t heir (names ++ [marker]) (r.addMarker t d heir marker) := by
  cases hid : t.lookup? marker with
  | none =>
    refine h.skip (fun id hid' => ?_) ?_ ?_
    · rw [hid] at hid'
      cases hid'
    · simp only [Resolution.addMarker, hid]
    · simp only [Resolution.addMarker, hid]
  | some id =>
    by_cases hmem : id ∈ r.traits
    · refine h.skip (fun id' hid' => ?_) ?_ ?_
      · obtain rfl := Option.some.inj (hid.symm.trans hid')
        exact List.mem_append_right _ hmem
      · simp only [Resolution.addMarker, hid, if_pos hmem]
      · simp only [Resolution.addMarker, hid, if_pos hmem]
    · refine h.add d.signature hid (fun p => ?_) ?_
      · simp only [Resolution.addMarker, hid, if_neg hmem, supertypes, List.mem_append,
          List.mem_singleton, or_assoc]
      · simp only [Resolution.addMarker, hid, if_neg hmem]

theorem Covers.addMarkers (d : TypeDef) (markers : List String) :
    Covers t heir (names ++ markers) (markers.foldl (Resolution.addMarker t d heir) r) := by
  induction markers generalizing r names with
  | nil => simpa using h
  | cons marker markers ih => simpa using ih (h.addMarker d marker)

end Covers

theorem covers_ofTypeDef (t : SymbolTable) (d : TypeDef) (heir : ClassId) :
    Covers t heir d.supertypeNames (ofTypeDef t d heir) := by
  have hnothing : Covers t heir [] ⟨none, [], [], []⟩ := covers_nothing
  have hfirst : 0 = 0 → (⟨none, [], [], []⟩ : Resolution).superclass = none := fun _ => rfl
  have hwritten := hnothing.addParents d (d.parents.map fun p => p.type.name) hfirst
  rw [List.nil_append, List.map_map] at hwritten
  rw [ofTypeDef, TypeDef.supertypeNames]
  by_cases hcase : d.isCase = true
  · rw [if_pos hcase, if_pos hcase]
    exact hwritten.addMarkers d caseMarkers
  · rw [if_neg hcase, if_neg hcase, List.append_nil]
    exact hwritten

theorem diagnostics_addMarkers (markers : List String) (r : Resolution) :
    (markers.foldl (Resolution.addMarker t d heir) r).diagnostics = r.diagnostics := by
  induction markers generalizing r with
  | nil => rfl
  | cons marker markers ih =>
    rw [List.foldl_cons, ih]
    unfold Resolution.addMarker
    split
    · split <;> rfl
    · rfl

def unresolved? (t : SymbolTable) (d : TypeDef) (name : Ident) : Option Diagnostic :=
  match t.lookup? name.text with
  | none => some (.unresolvedSupertype name.text d.name.text name.span)
  | some _ => none

theorem diagnostics_addParents (t : SymbolTable) (d : TypeDef) (heir : ClassId)
    (written : List Ident) (position : Nat) (r : Resolution) :
    ((written.zipIdx position).foldl (Resolution.addParent t d heir) r).diagnostics =
      r.diagnostics ++ written.filterMap (unresolved? t d) := by
  induction written generalizing position r with
  | nil => simp
  | cons name written ih =>
    have hstep : (r.addParent t d heir (name, position)).diagnostics =
        r.diagnostics ++ (unresolved? t d name).toList := by
      simp only [Resolution.addParent, unresolved?]
      cases t.lookup? name.text with
      | none => rfl
      | some id =>
        simp only [Option.toList_none, List.append_nil]
        split <;> rfl
    rw [List.zipIdx_cons, List.foldl_cons, ih, hstep, List.filterMap_cons]
    cases unresolved? t d name <;> simp

theorem diagnostics_ofTypeDef (t : SymbolTable) (d : TypeDef) (heir : ClassId) :
    (ofTypeDef t d heir).diagnostics =
      (d.parents.map fun p => p.type.name).filterMap (unresolved? t d) := by
  have hwritten := diagnostics_addParents t d heir (d.parents.map fun p => p.type.name) 0
    ⟨none, [], [], []⟩
  rw [List.nil_append] at hwritten
  rw [ofTypeDef]
  split
  · rw [diagnostics_addMarkers]
    exact hwritten
  · exact hwritten

theorem harmless_ofTypeDef :
    Harmless (ofTypeDef t d heir).diagnostics ↔ ∀ name ∈ d.parentNames, name ∈ t.names := by
  rw [diagnostics_ofTypeDef, TypeDef.parentNames, List.forall_mem_map]
  constructor
  · intro h p hp
    by_contra hnot
    rw [← SymbolTable.lookup?_eq_none_iff] at hnot
    have hmem : Diagnostic.unresolvedSupertype p.type.name.text d.name.text p.type.name.span ∈
        (d.parents.map fun p => p.type.name).filterMap (unresolved? t d) :=
      List.mem_filterMap.mpr ⟨_, List.mem_map_of_mem hp, by rw [unresolved?, hnot]⟩
    exact Bool.noConfusion (h _ hmem)
  · intro h e he
    obtain ⟨name, hname, hsome⟩ := List.mem_filterMap.mp he
    obtain ⟨p, hp, rfl⟩ := List.mem_map.mp hname
    cases hlookup : t.lookup? p.type.name.text with
    | none => exact absurd (h p hp) (SymbolTable.lookup?_eq_none_iff.mp hlookup)
    | some id => simp [unresolved?, hlookup] at hsome

theorem kind_of_mem_diagnostics {e : Diagnostic} (he : e ∈ (ofTypeDef t d heir).diagnostics) :
    e.kind = .unresolvedSupertype := by
  rw [diagnostics_ofTypeDef] at he
  obtain ⟨name, -, hsome⟩ := List.mem_filterMap.mp he
  unfold unresolved? at hsome
  split at hsome
  · rw [← Option.some.inj hsome]
    rfl
  · cases hsome

/-- Tables in which the types have the same names and kinds resolve alike. -/
def Alike (t t' : SymbolTable) : Prop :=
  t'.names = t.names ∧ ∀ c, (t'.classInfo c).kind = (t.classInfo c).kind

theorem Alike.lookup? {t' : SymbolTable} (h : Alike t t') : t'.lookup? = t.lookup? := by
  funext name
  rw [SymbolTable.lookup?_eq_findIdx?, SymbolTable.lookup?_eq_findIdx?, h.1]

theorem Alike.ofTypeDef {t' : SymbolTable} (h : Alike t t') (d : TypeDef) (heir : ClassId) :
    Resolution.ofTypeDef t' d heir = Resolution.ofTypeDef t d heir := by
  have hparent : Resolution.addParent t' d heir = Resolution.addParent t d heir := by
    funext r p
    simp only [Resolution.addParent, h.lookup?, h.2]
  have hmarker : Resolution.addMarker t' d heir = Resolution.addMarker t d heir := by
    funext r marker
    simp only [Resolution.addMarker, h.lookup?]
  simp only [Resolution.ofTypeDef, hparent, hmarker]

end Resolution

/-! ### All definitions -/

namespace Analysis

/-- Sets the supertypes of a type to what the names in its definition denote in the table `t`. -/
def assign (t s : SymbolTable) (p : TypeDef × ClassId) : SymbolTable :=
  let r := Resolution.ofTypeDef t p.1 p.2
  s.setSupertypes p.2 r.superclass r.traits

theorem alike_assign {t s : SymbolTable} (h : Resolution.Alike t s) (p : TypeDef × ClassId) :
    Resolution.Alike t (assign t s p) := by
  refine ⟨(SymbolTable.names_setSupertypes ..).trans h.1, fun c => ?_⟩
  rw [← h.2 c, assign, SymbolTable.setSupertypes]
  by_cases hc : c = p.2
  · subst hc
    by_cases hlt : p.2.index < s.classes.size
    · rw [SymbolTable.classInfo_modifyClass_self _ hlt]
    · rw [SymbolTable.classInfo_modifyClass_of_le _ (Nat.le_of_not_lt hlt)]
  · rw [SymbolTable.classInfo_modifyClass_of_ne _ hc]

theorem foldlM_resolveType {t : SymbolTable} (ps : List (TypeDef × ClassId)) {a : Analysis}
    (es : List Inheritance) (halike : Resolution.Alike t a.symbols)
    (hps : ∀ p ∈ ps, a.registry.classOf p.1 = .ok p.2) :
    (ps.map (·.1)).foldlM resolveType (a, es) =
      .ok
        ({ a with
            symbols := ps.foldl (assign t) a.symbols
            diagnostics := a.diagnostics ++
              ps.flatMap fun p => (Resolution.ofTypeDef t p.1 p.2).diagnostics },
          es ++ ps.flatMap fun p => (Resolution.ofTypeDef t p.1 p.2).edges) := by
  induction ps generalizing a es with
  | nil => simp [pure, Except.pure]
  | cons p ps ih =>
    have hid := hps p (List.mem_cons_self ..)
    let next : Analysis :=
      { a with
        symbols := assign t a.symbols p
        diagnostics := a.diagnostics ++ (Resolution.ofTypeDef t p.1 p.2).diagnostics }
    have hstep : resolveType (a, es) p.1 =
        .ok (next, es ++ (Resolution.ofTypeDef t p.1 p.2).edges) := by
      simp only [resolveType, hid, halike.ofTypeDef, report, assign, next]
    have hrest := ih (a := next) (es ++ (Resolution.ofTypeDef t p.1 p.2).edges)
      (alike_assign halike p) fun q hq => hps q (List.mem_cons_of_mem _ hq)
    rw [List.map_cons, List.foldlM_cons, hstep]
    refine hrest.trans ?_
    simp [next]

theorem classInfo_foldl_assign {t : SymbolTable} (ps : List (TypeDef × ClassId)) (s : SymbolTable)
    {c : ClassId} (hc : c ∉ ps.map (·.2)) :
    (ps.foldl (assign t) s).classInfo c = s.classInfo c := by
  induction ps generalizing s with
  | nil => rfl
  | cons p ps ih =>
    rw [List.map_cons, List.mem_cons, not_or] at hc
    rw [List.foldl_cons, ih _ hc.2]
    exact SymbolTable.classInfo_modifyClass_of_ne _ hc.1

theorem classInfo_frame_assign {t : SymbolTable} (ps : List (TypeDef × ClassId)) (s : SymbolTable)
    (c : ClassId) :
    ∃ superclass traits, (ps.foldl (assign t) s).classInfo c =
      { s.classInfo c with superclass := superclass, traits := traits } := by
  induction ps generalizing s with
  | nil => exact ⟨_, _, rfl⟩
  | cons p ps ih =>
    obtain ⟨superclass, traits, hrest⟩ := ih (assign t s p)
    rw [List.foldl_cons, hrest, assign, SymbolTable.setSupertypes]
    by_cases hc : c = p.2
    · subst hc
      by_cases hlt : p.2.index < s.classes.size
      · rw [SymbolTable.classInfo_modifyClass_self _ hlt]
        exact ⟨_, _, rfl⟩
      · rw [SymbolTable.classInfo_modifyClass_of_le _ (Nat.le_of_not_lt hlt)]
        exact ⟨_, _, rfl⟩
    · rw [SymbolTable.classInfo_modifyClass_of_ne _ hc]
      exact ⟨_, _, rfl⟩

theorem frame_foldl_assign {t : SymbolTable} (ps : List (TypeDef × ClassId)) (s : SymbolTable) :
    (ps.foldl (assign t) s).classes.size = s.classes.size ∧
      (ps.foldl (assign t) s).names = s.names ∧ (ps.foldl (assign t) s).methods = s.methods := by
  induction ps generalizing s with
  | nil => exact ⟨rfl, rfl, rfl⟩
  | cons p ps ih =>
    rw [List.foldl_cons]
    obtain ⟨hsize, hnames, hmethods⟩ := ih (assign t s p)
    exact ⟨hsize.trans (SymbolTable.size_setSupertypes ..),
      hnames.trans (SymbolTable.names_setSupertypes ..), hmethods⟩

/-- The last definition for a type determines its supertypes. -/
theorem classInfo_foldl_assign_of_mem {t : SymbolTable} {ps : List (TypeDef × ClassId)}
    (s : SymbolTable) {p : TypeDef × ClassId} (hp : p ∈ ps)
    (hknown : p.2.index < s.classes.size) :
    (ps.foldl (assign t) s).classInfo p.2 =
      { s.classInfo p.2 with
        superclass := (Resolution.ofTypeDef t (latest (·.2) ps p).1 p.2).superclass
        traits := (Resolution.ofTypeDef t (latest (·.2) ps p).1 p.2).traits } := by
  induction ps using List.reverseRecOn with
  | nil => cases hp
  | append_singleton ps q ih =>
    rw [List.foldl_concat, latest_concat]
    by_cases hq : q.2 = p.2
    · obtain ⟨superclass, traits, hinfo⟩ := classInfo_frame_assign (t := t) ps s p.2
      have hlt : p.2.index < (ps.foldl (assign t) s).classes.size :=
        hknown.trans_eq (frame_foldl_assign ps s).1.symm
      rw [if_pos hq, assign, hq]
      refine (SymbolTable.classInfo_modifyClass_self _ hlt).trans ?_
      rw [hinfo]
    · have hmem : p ∈ ps := by
        rcases List.mem_append.mp hp with hp | hp
        · exact hp
        · exact absurd (congrArg (·.2) (List.mem_singleton.mp hp)).symm hq
      rw [if_neg hq, ← ih hmem]
      exact SymbolTable.classInfo_modifyClass_of_ne _ (Ne.symm hq)

def unresolvedParents (a : Analysis) (ds : List TypeDef) : List Diagnostic :=
  (numbered ds).flatMap fun p => (Resolution.ofTypeDef a.symbols p.1 p.2).diagnostics

/-- What resolving the parents of definitions makes of an analysis, if each is taken for the type
beside it. -/
def assigned (a : Analysis) (ps : List (TypeDef × ClassId)) : Analysis :=
  { a with
    symbols := ps.foldl (assign a.symbols) a.symbols
    diagnostics := a.diagnostics ++
      ps.flatMap fun p => (Resolution.ofTypeDef a.symbols p.1 p.2).diagnostics }

def assignedEdges (a : Analysis) (ps : List (TypeDef × ClassId)) : List Inheritance :=
  ps.flatMap fun p => (Resolution.ofTypeDef a.symbols p.1 p.2).edges

abbrev resolved (a : Analysis) (ds : List TypeDef) : Analysis := a.assigned (numbered ds)

abbrev resolvedEdges (a : Analysis) (ds : List TypeDef) : List Inheritance :=
  a.assignedEdges (numbered ds)

/-- The definitions with the types for which the registry takes them. -/
def located (ds : List TypeDef) : List (TypeDef × ClassId) :=
  (numbered ds).map fun p => (p.1, (occupant ds p).2)

theorem located_eq_numbered {ds : List TypeDef} (hdistinct : (ds.map (·.signature)).Nodup) :
    located ds = numbered ds := by
  refine (List.map_congr_left fun p hp => ?_).trans (List.map_id _)
  rw [occupant_eq_self hdistinct hp]
  rfl

theorem latest_located {ds : List TypeDef} {p : TypeDef × ClassId} (hp : p ∈ numbered ds) :
    latest (·.2) (located ds) (p.1, (occupant ds p).2) = occupant ds p := by
  have hsame : ∀ q ∈ numbered ds,
      (occupant ds q).2 = (occupant ds p).2 ↔ q.1.signature = p.1.signature := by
    intro q hq
    constructor
    · intro h
      have heq := List.inj_on_of_nodup_map (nodup_numbered ds) (occupant_mem hq) (occupant_mem hp) h
      have hkey := key_latest (k := fun q => q.1.signature) hq
      have hkey' := key_latest (k := fun q => q.1.signature) hp
      exact hkey.symm.trans ((congrArg (·.1.signature) heq).trans hkey')
    · intro h
      exact congrArg (·.2) (latest_congr (k := fun q => q.1.signature) hq hp h)
  refine (latest_map (k := fun q => q.1.signature) (l := (·.2))
    (fun q => (q.1, (occupant ds q).2)) hp hsame).trans ?_
  exact congrArg (fun c => ((occupant ds p).1, c)) (congrArg (·.2) (latest_latest hp))

namespace Collected

variable {ds : List TypeDef} {a : Analysis}

theorem foldlM_resolveType (h : Collected ds a) :
    ds.foldlM resolveType (a, []) =
      .ok (a.assigned (located ds), a.assignedEdges (located ds)) := by
  have hknown : ∀ p ∈ located ds, a.registry.classOf p.1 = .ok p.2 := by
    intro p hp
    obtain ⟨q, hq, rfl⟩ := List.mem_map.mp hp
    exact h.classOf_occupant hq
  have hrun := Analysis.foldlM_resolveType (located ds) (t := a.symbols) [] ⟨rfl, fun _ => rfl⟩
    hknown
  rw [located, List.map_map, Function.comp_def, map_fst_numbered] at hrun
  exact hrun

theorem index_lt (h : Collected ds a) {p : TypeDef × ClassId} (hp : p ∈ numbered ds) :
    p.2.index < a.symbols.classes.size := by
  have hindex := (numbered_index hp).2.1
  rw [h.size]
  omega

theorem index_lt_located (h : Collected ds a) : ∀ p ∈ located ds,
    p.2.index < a.symbols.classes.size := by
  intro p hp
  obtain ⟨q, hq, rfl⟩ := List.mem_map.mp hp
  exact h.index_lt (p := occupant ds q) (occupant_mem hq)

theorem classInfo_resolved (h : Collected ds a) {p : TypeDef × ClassId} (hp : p ∈ numbered ds) :
    (a.resolved ds).symbols.classInfo p.2 =
      { a.symbols.classInfo p.2 with
        superclass := (Resolution.ofTypeDef a.symbols p.1 p.2).superclass
        traits := (Resolution.ofTypeDef a.symbols p.1 p.2).traits } := by
  refine (classInfo_foldl_assign_of_mem a.symbols hp (h.index_lt hp)).trans ?_
  rw [latest_eq_self (nodup_numbered ds) hp]

section Assigned

variable {ps : List (TypeDef × ClassId)} (h : Collected ds a)
  (hps : ∀ p ∈ ps, p.2.index < a.symbols.classes.size)
include h hps

theorem inherits_assigned {heir parent : ClassId} :
    (a.assigned ps).symbols.Inherits heir parent ↔
      ∃ p ∈ ps, p.2 = heir ∧ (latest (·.2) ps p).1.Denotes a.symbols parent := by
  by_cases hheir : heir ∈ ps.map (·.2)
  · obtain ⟨p, hp, rfl⟩ := List.mem_map.mp hheir
    rw [SymbolTable.Inherits, assigned, classInfo_foldl_assign_of_mem _ hp (hps p hp)]
    refine ((Resolution.covers_ofTypeDef a.symbols _ p.2).denoted parent).trans ?_
    constructor
    · intro hname
      exact ⟨p, hp, rfl, hname⟩
    · rintro ⟨q, hq, heq, hname⟩
      rwa [latest_congr (k := (·.2)) hq hp heq] at hname
  · rw [SymbolTable.Inherits, assigned, classInfo_foldl_assign _ _ hheir,
      ClassInfo.directSupertypes, (h.plain heir).1, (h.plain heir).2]
    simp only [Option.toList_none, List.append_nil, List.not_mem_nil, false_iff, not_exists,
      not_and]
    rintro p hp rfl
    exact absurd (List.mem_map_of_mem hp) hheir

omit h hps in
theorem edge_assigned {heir parent : ClassId} :
    (∃ e ∈ a.assignedEdges ps, e.heir = heir ∧ e.parent = parent) ↔
      ∃ p ∈ ps, p.2 = heir ∧ p.1.Denotes a.symbols parent := by
  constructor
  · rintro ⟨e, he, rfl, rfl⟩
    obtain ⟨p, hp, he⟩ := List.mem_flatMap.mp he
    have hcovers := Resolution.covers_ofTypeDef a.symbols p.1 p.2
    refine ⟨p, hp, (hcovers.heirs e he).symm, (hcovers.denoted _).mp ?_⟩
    exact (hcovers.parents _).mp ⟨e, he, rfl⟩
  · rintro ⟨p, hp, rfl, hname⟩
    have hcovers := Resolution.covers_ofTypeDef a.symbols p.1 p.2
    obtain ⟨e, he, hparent⟩ := (hcovers.parents _).mpr ((hcovers.denoted _).mpr hname)
    exact ⟨e, List.mem_flatMap.mpr ⟨p, hp, he⟩, hcovers.heirs e he, hparent⟩

/-- Before any circle is broken, every supertype of a type is that of an edge. -/
theorem sound : Untangling.Sound ⟨(a.assigned ps).symbols, a.assignedEdges ps, [], []⟩ where
  backed := by
    intro heir parent hinherits
    obtain ⟨p, hp, rfl, hname⟩ := (h.inherits_assigned hps).mp hinherits
    rw [Untangling.edge_graph, edge_assigned]
    exact ⟨_, latest_mem hp, key_latest (k := (·.2)) hp, hname⟩
  known := by
    intro e he
    obtain ⟨p, hp, hheir, name, -, hname⟩ := edge_assigned.mp ⟨e, he, rfl, rfl⟩
    have hsize := (frame_foldl_assign (t := a.symbols) ps a.symbols).1
    have hparent := SymbolTable.mem_classIds.mp (SymbolTable.lookup?_mem_classIds hname)
    rw [← hheir]
    refine ⟨SymbolTable.mem_classIds.mpr ?_, SymbolTable.mem_classIds.mpr ?_⟩
    · exact (hps p hp).trans_eq hsize.symm
    · exact hparent.trans_eq hsize.symm

/-- Edges and symbol table describe the same pairs exactly if, of several definitions that are taken
for one type, the last one names all supertypes. -/
theorem inStep_iff :
    Untangling.InStep ⟨(a.assigned ps).symbols, a.assignedEdges ps, [], []⟩ ↔
      ∀ p ∈ ps, ∀ parent, p.1.Denotes a.symbols parent →
        (latest (·.2) ps p).1.Denotes a.symbols parent := by
  constructor
  · intro hstep p hp parent hname
    have hedge := edge_assigned.mpr ⟨p, hp, rfl, hname⟩
    obtain ⟨q, hq, heq, hname'⟩ := (h.inherits_assigned hps).mp ((hstep p.2 parent).mp hedge)
    rwa [latest_congr (k := (·.2)) hq hp heq] at hname'
  · intro hnamed heir parent
    rw [h.inherits_assigned hps, edge_assigned]
    constructor
    · rintro ⟨p, hp, rfl, hname⟩
      exact ⟨p, hp, rfl, hnamed p hp parent hname⟩
    · rintro ⟨p, hp, rfl, hname⟩
      exact ⟨_, latest_mem hp, key_latest (k := (·.2)) hp, hname⟩

end Assigned

theorem inherits_resolved (h : Collected ds a) {heir parent : ClassId} :
    (a.resolved ds).symbols.Inherits heir parent ↔
      ∃ p ∈ numbered ds, p.2 = heir ∧ p.1.Denotes a.symbols parent := by
  rw [h.inherits_assigned fun p hp => h.index_lt hp]
  refine exists_congr fun p => and_congr_right fun hp => ?_
  rw [latest_eq_self (nodup_numbered ds) hp]

theorem inStep_resolved (h : Collected ds a) :
    Untangling.InStep ⟨(a.resolved ds).symbols, a.resolvedEdges ds, [], []⟩ := by
  rw [h.inStep_iff fun p hp => h.index_lt hp]
  intro p hp parent hname
  rwa [latest_eq_self (nodup_numbered ds) hp]

end Collected

end Analysis

/-! ### What is left -/

/-- What resolving the supertypes of units leaves: the parents of all definitions were resolved to
`resolved` with the given edges, and then the circles were broken and reported one after another. -/
structure Untangled (units : List Program) (collected resolved : Analysis)
    (edges : List Inheritance) (final : Analysis) (cycles : List (List ClassId))
    (reports : List Diagnostic) : Prop where
  parents : (units.flatMap (·.definitions)).foldlM Analysis.resolveType (collected, []) =
    .ok (resolved, edges)
  result : collected.resolveSupertypes units = .ok final
  registry : final.registry = resolved.registry
  methods : final.symbols.methods = resolved.symbols.methods
  /-- No type inherits from itself. -/
  acyclic : ∀ c, ¬ TransGen final.symbols.Inherits c c
  /-- Only the links of the circles are gone. What is left of the supertypes of a type keeps its
  role and its order. -/
  kept : ∀ c, final.symbols.classInfo c = (resolved.symbols.classInfo c).without fun p =>
    decide ((c, p) ∈ cycles.flatMap cycleLinks)
  /-- After some rounds the circles are broken. Each of them stands when it is its turn, and is
  listed from its oldest type on. -/
  broken : ∃ n, let last := Untangling.round^[n] ⟨resolved.symbols, edges, [], []⟩
    Untangling.Breaks ⟨resolved.symbols, edges, [], []⟩ cycles last ∧ last.symbols = final.symbols
  /-- Only names without a type are reported before. -/
  unresolved : ∃ ds, (∀ d ∈ ds, d.kind = .unresolvedSupertype) ∧
    resolved.diagnostics = collected.diagnostics ++ ds
  /-- Exactly these circles are reported. -/
  reported : final.diagnostics = resolved.diagnostics ++ reports ∧
    List.Forall₂ (Untangling.Reports ⟨resolved.symbols, edges, [], []⟩) cycles reports
  reported_iff : reports ≠ [] ↔
    ∃ c, TransGen (fun heir parent => ∃ e ∈ edges, e.heir = heir ∧ e.parent = parent) c c
  /-- At the beginning of every round, there is an edge for each supertype of each type. -/
  backed : ∀ n heir parent, let u := Untangling.round^[n] ⟨resolved.symbols, edges, [], []⟩
    u.symbols.Inherits heir parent → ∃ e ∈ u.edges, e.heir = heir ∧ e.parent = parent

/-- At the beginning of every round, edges and symbol table describe the same pairs. -/
def StaysInStep (resolved : Analysis) (edges : List Inheritance) : Prop :=
  ∀ n, (Untangling.round^[n] ⟨resolved.symbols, edges, [], []⟩).InStep

abbrev Analysis.Untangles (a : Analysis) (ps : List (TypeDef × ClassId)) (units : List Program)
    (final : Analysis) (cycles : List (List ClassId)) (reports : List Diagnostic) : Prop :=
  Untangled units a (a.assigned ps) (a.assignedEdges ps) final cycles reports

theorem Untangling.Breaks.ne_nil_iff {u last : Untangling} {cycles : List (List ClassId)}
    (h : u.Breaks cycles last) (hlast : last.graph.Acyclic) :
    cycles ≠ [] ↔ ∃ c, TransGen u.graph.Edge c c := by
  cases h with
  | done => simpa using fun c => hlast c
  | step hcycle => simpa using hcycle.transGen

theorem Untangling.Sound.staysInStep_iff {resolved : Analysis} {edges : List Inheritance}
    (h : Untangling.Sound ⟨resolved.symbols, edges, [], []⟩) :
    StaysInStep resolved edges ↔ Untangling.InStep ⟨resolved.symbols, edges, [], []⟩ := by
  constructor
  · intro hstep
    exact hstep 0
  · intro hstep n
    obtain ⟨cycles, hbreaks⟩ := h.exists_breaks_iterate n
    exact hbreaks.inStep hstep

theorem Untangling.Breaks.eq_of_nil {u last : Untangling} (h : u.Breaks [] last) : last = u := by
  cases h
  rfl

namespace Untangled

variable {units : List Program} {collected resolved final : Analysis} {edges : List Inheritance}
  {cycles : List (List ClassId)} {reports : List Diagnostic}

/-- If edges and symbol table agree, a circle of types is reported exactly if there is one. -/
theorem circle_iff (h : Untangled units collected resolved edges final cycles reports)
    (hstep : Untangling.InStep ⟨resolved.symbols, edges, [], []⟩) :
    reports ≠ [] ↔ ∃ c, TransGen resolved.symbols.Inherits c c := by
  rw [h.reported_iff]
  have hsame : (fun heir parent => ∃ e ∈ edges, e.heir = heir ∧ e.parent = parent) =
      resolved.symbols.Inherits := by
    funext heir parent
    exact propext (hstep heir parent)
  rw [hsame]

/-- Where types inherit only from older ones, there is no circle to report. -/
theorem reports_eq_nil (h : Untangled units collected resolved edges final cycles reports)
    (hedges : ∀ e ∈ edges, e.parent.index < e.heir.index) : reports = [] := by
  by_contra hcircle
  obtain ⟨c, hc⟩ := h.reported_iff.mp hcircle
  have hless : TransGen (fun m n : Nat => n < m) c.index c.index := by
    refine hc.lift ClassId.index ?_
    rintro heir parent ⟨e, he, rfl, rfl⟩
    exact hedges e he
  rw [transGen_eq_self] at hless
  exact lt_irrefl _ hless

theorem symbols_eq (hu : Untangled units collected resolved edges final cycles []) :
    final.symbols = resolved.symbols := by
  obtain ⟨n, hbreaks, hlast⟩ := hu.broken
  have hreported := hu.reported.2
  cases hreported
  rw [← hlast, hbreaks.eq_of_nil]

end Untangled

def Analysis.untangle (a : Analysis) (edges : List Inheritance) : Analysis :=
  let u := Untangling.breakCycles ⟨a.symbols, edges, [], []⟩
  ({ a with symbols := u.symbols }.report u.diagnostics).log u.events

def resolvedUnits (units : List Program) : Analysis :=
  let collected := Analysis.initial.collectDeclarations units
  (collected.assigned (Analysis.located (units.flatMap (·.definitions)))).untangle
    (collected.assignedEdges (Analysis.located (units.flatMap (·.definitions))))

theorem untangled_located (units : List Program) :
    ∃ cycles reports, (Analysis.initial.collectDeclarations units).Untangles
      (Analysis.located (units.flatMap (·.definitions))) units (resolvedUnits units) cycles
      reports := by
  have h := Analysis.collected units
  have hsound := h.sound h.index_lt_located
  obtain ⟨n, cycles, hiterate, hbreaks, hacyclic⟩ := hsound.breakCycles
  obtain ⟨reports, hreports, hall⟩ := hbreaks.diagnostics
  rw [List.nil_append] at hreports
  refine ⟨cycles, reports, {
    parents := h.foldlM_resolveType
    result := ?_
    registry := rfl
    methods := hbreaks.members.2
    acyclic := ?_
    kept := hbreaks.classInfo
    broken := ⟨n, hiterate ▸ ⟨hbreaks, rfl⟩⟩
    unresolved := ⟨_, ?_, rfl⟩
    reported := ⟨by rw [← hreports]; rfl, hall⟩
    reported_iff := ?_
    backed := ?_ }⟩
  · rw [Analysis.resolveSupertypes, h.foldlM_resolveType]
    rfl
  · intro c hcircle
    exact hacyclic c (TransGen.mono (hbreaks.sound hsound).backed _ _ hcircle)
  · intro d hd
    obtain ⟨p, -, hd⟩ := List.mem_flatMap.mp hd
    exact Resolution.kind_of_mem_diagnostics hd
  · have hfound := hbreaks.ne_nil_iff hacyclic
    rw [Untangling.edge_eq] at hfound
    rw [← hfound]
    cases hall <;> simp
  · intro n heir parent u hinherits
    obtain ⟨earlier, hearlier⟩ := hsound.exists_breaks_iterate n
    exact Untangling.edge_graph.mp ((hearlier.sound hsound).backed heir parent hinherits)

theorem untangled_resolvedUnits {units : List Program}
    (htypes : ((units.flatMap (·.definitions)).map (·.signature)).Nodup) :
    ∃ cycles reports, (Analysis.initial.collectDeclarations units).Untangles
      (Analysis.numbered (units.flatMap (·.definitions))) units (resolvedUnits units) cycles
      reports :=
  Analysis.located_eq_numbered htypes ▸ untangled_located units

end Mixin
