import Mixin.Proofs.Acceptance

/-!
# What the analyses report

Analyzing is four passes, one after another (`analyze_eq_foldlM`). All that they report of parsed
units, one part for each pass, and the symbol table that they leave (`exists_runs`,
`analyze_reports`). The registry does not occur in it: what is reported follows from the
definitions, their numbers and, where several stand at the same place, which one is the last.
-/

namespace Mixin

/-! ### Fields without a value -/

def TypeDef.bareFields (d : TypeDef) : List Field := d.fields.filter fun f => !f.initializer.isGiven

def missingInitializers (ds : List TypeDef) : List Diagnostic :=
  ds.flatMap fun d => d.bareFields.map fun f =>
    .missingInitializer f.binding f.name f.type d.name.text

namespace Visit

theorem definitionVisits_cons (v : Visit) (vs : List Visit) :
    definitionVisits (v :: vs) =
      if v.isDefinition then v :: definitionVisits vs else definitionVisits vs :=
  List.filter_cons

theorem bareFields_definitionVisits (owner : String) (vs : List Visit) :
    bareFields owner (definitionVisits vs) = bareFields owner vs := by
  induction vs generalizing owner with
  | nil => rfl
  | cons v vs ih =>
    rw [definitionVisits_cons]
    cases v with
    | type | method | field => exact congrArg (_ ++ ·) (ih _)
    | parameter | expr | omitted | block | define => exact ih owner

theorem bareFields_members {r : Registry} {o : Owner} (owner : String) (ms : List Member)
    (rest : List Visit) :
    bareFields owner (ms.map (Member.entry r o) ++ rest) =
      ((ms.filterMap Member.field?).filter fun f => !f.initializer.isGiven).map (·, owner) ++
        bareFields owner rest := by
  induction ms with
  | nil => rfl
  | cons m ms ih =>
    cases m with
    | method m => exact ih
    | field f =>
      rw [List.map_cons, List.cons_append, bareFields, List.filterMap_cons]
      cases hgiven : f.initializer.isGiven with
      | true => simpa [Member.entry, bareField?, typeName?, Member.field?, hgiven] using ih
      | false => simpa [Member.entry, bareField?, typeName?, Member.field?, hgiven] using ih

theorem bareFields_entries {r : Registry} (owner : String) (ds : List TypeDef) :
    bareFields owner (ds.flatMap (TypeDef.entries r)) =
      ds.flatMap fun d => d.bareFields.map (·, d.name.text) := by
  induction ds generalizing owner with
  | nil => rfl
  | cons d ds ih =>
    rw [List.flatMap_cons, List.flatMap_cons, TypeDef.entries, List.cons_append, bareFields]
    exact (bareFields_members _ _ _).trans (congrArg _ (ih _))

end Visit

/-! ### Methods without a body -/

def MethodInfo.missingBody (t : SymbolTable) (m : MethodInfo) : List Diagnostic :=
  let owner := t.classInfo m.owner
  if m.isAbstract && !owner.mayBeIncomplete then [.abstractInConcrete m.sketch owner.sketch] else []

def missingBodies (t : SymbolTable) (ds : List TypeDef) : List Diagnostic :=
  (Analysis.numbered ds).flatMap fun p =>
    Visit.obligations t (.type p.1 p.2) ++
      p.1.methods.flatMap fun m => (m.info p.2).missingBody t

/-- What is reported of methods without a body, where several definitions may stand at the same
place: each is taken for the last one there. -/
def knownMissingBodies (t : SymbolTable) (ds : List TypeDef) : List Diagnostic :=
  (Analysis.numbered ds).flatMap fun p =>
    Visit.obligations t (.type p.1 (Analysis.occupant ds p).2) ++
      p.1.methods.flatMap fun m =>
        let x := Analysis.methodOccupant ds (m, p)
        (x.1.info x.2.2).missingBody t

theorem knownMissingBodies_eq (t : SymbolTable) {ds : List TypeDef}
    (htypes : (ds.map (·.signature)).Nodup)
    (hmethods : ((ds.flatMap (·.methods)).map (·.signature)).Nodup) :
    knownMissingBodies t ds = missingBodies t ds := by
  refine List.flatMap_congr fun p hp => ?_
  rw [Analysis.occupant_eq_self htypes hp]
  refine congrArg _ (List.flatMap_congr fun m hm => ?_)
  rw [Analysis.methodOccupant_eq_self hmethods (Analysis.mem_ownedMethods hp hm)]

namespace Visit

theorem obligations_definitionVisits (t : SymbolTable) (vs : List Visit) :
    (definitionVisits vs).flatMap (obligations t) = vs.flatMap (obligations t) := by
  induction vs with
  | nil => rfl
  | cons v vs ih =>
    rw [List.flatMap_cons, ← ih, definitionVisits_cons]
    cases v with
    | type | method | field => exact List.flatMap_cons ..
    | parameter | expr | omitted | block | define => rfl

theorem obligations_members {t : SymbolTable} {r : Registry} {o : Owner}
    {info : Method → MethodInfo} {ms : List Member}
    (h : ∀ m ∈ ms.filterMap Member.method?,
      ∃ id, r.methodOf m = .ok id ∧ t.methodInfo id = info m) :
    (ms.map (Member.entry r o)).flatMap (obligations t) =
      (ms.filterMap Member.method?).flatMap fun m => (info m).missingBody t := by
  induction ms with
  | nil => rfl
  | cons member ms ih =>
    cases member with
    | field f => exact ih h
    | method m =>
      rw [List.filterMap_cons_some (f := Member.method?) (b := m) rfl] at h ⊢
      rw [List.forall_mem_cons] at h
      obtain ⟨⟨id, hid, hinfo⟩, hrest⟩ := h
      rw [List.map_cons, List.flatMap_cons, List.flatMap_cons, ih hrest, Member.entry, hid]
      refine congrArg (· ++ _) ?_
      simp only [obligations, Except.toOption, Option.getD_some, hinfo]
      rfl

theorem obligations_entries {t : SymbolTable} {r : Registry} {ds : List TypeDef}
    (hids : ∀ p ∈ Analysis.numbered ds, r.classOf p.1 = .ok (Analysis.occupant ds p).2)
    (hmethods : ∀ x ∈ Analysis.ownedMethods ds, ∃ id, r.methodOf x.1 = .ok id ∧
      t.methodInfo id =
        (Analysis.methodOccupant ds x).1.info (Analysis.methodOccupant ds x).2.2) :
    (ds.flatMap (TypeDef.entries r)).flatMap (obligations t) = knownMissingBodies t ds := by
  rw [List.flatMap_assoc, knownMissingBodies]
  refine (Analysis.flatMap_numbered fun p hp => ?_).symm
  rw [TypeDef.entries, hids p hp, List.flatMap_cons]
  refine congrArg _ (obligations_members fun m hm => ?_).symm
  exact hmethods (m, p) (Analysis.mem_ownedMethods hp hm)

end Visit

/-! ### All analyses -/

namespace Analysis

def structured (a : Analysis) (vs : List Visit) : Analysis :=
  (a.report ((Visit.bareFields "" vs).map fun p =>
      .missingInitializer p.1.binding p.1.name p.1.type p.2)).log
    ((Visit.bareFields "" vs).map fun p => .initializerMissing p.1.name.text p.2)

def obliged (a : Analysis) (vs : List Visit) : Analysis :=
  (a.report (vs.flatMap (Visit.obligations a.symbols))).log
    (vs.flatMap (Visit.obligationEvents a.symbols))

variable {a : Analysis} {units : List Program} {vs : List Visit}

theorem checkStructure_eq (hvisits : visitsOfAll a.registry units = .ok vs) :
    a.checkStructure units = .ok (a.structured vs) := by
  rw [checkStructure, hvisits]
  rfl

theorem registry_of_checkStructure {b : Analysis} (h : a.checkStructure units = .ok b) :
    b.registry = a.registry := by
  unfold checkStructure at h
  split at h
  · cases h
  · obtain rfl := Except.ok.inj h
    rfl

theorem registry_of_checkObligations {b : Analysis} (h : a.checkObligations units = .ok b) :
    b.registry = a.registry := by
  unfold checkObligations at h
  split at h
  · cases h
  · obtain rfl := Except.ok.inj h
    rfl

theorem checkObligations_eq (hvisits : visitsOfAll a.registry units = .ok vs) :
    a.checkObligations units = .ok (a.obliged vs) := by
  rw [checkObligations, hvisits]
  rfl

end Analysis

/-! ### Passes -/

/-- The passes over the definitions of a program, in their order. -/
inductive Pass where
  | declarations
  | supertypes
  | initializers
  | obligations

namespace Pass

def all : List Pass := [declarations, supertypes, initializers, obligations]

def run (units : List Program) (a : Analysis) : Pass → Except Unanalyzed Analysis
  | declarations => .ok (a.collectDeclarations units)
  | supertypes => a.resolveSupertypes units
  | initializers => a.checkStructure units
  | obligations => a.checkObligations units

def completed : Pass → List Event
  | declarations => []
  | supertypes => [.stageReached .parsed .symbolsBuilt]
  | initializers => [.stageReached .symbolsBuilt .structureValidated]
  | obligations => [.stageReached .structureValidated .obligationsValidated]

def step (units : List Program) (a : Analysis) (pass : Pass) : Except Unanalyzed Analysis :=
  (pass.run units a).map (·.log pass.completed)

/-- Passes that run one after another, each with what it reports. -/
inductive Runs (units : List Program) :
    Analysis → List (Pass × List Diagnostic) → Analysis → Prop where
  | nil (a : Analysis) : Runs units a [] a
  | cons {a b last : Analysis} {pass : Pass} {reports : List Diagnostic}
    {rest : List (Pass × List Diagnostic)} (hrun : pass.run units a = .ok b)
    (hreports : b.diagnostics = a.diagnostics ++ reports)
    (hrest : Runs units (b.log pass.completed) rest last) :
    Runs units a ((pass, reports) :: rest) last

variable {units : List Program} {a last : Analysis} {passes : List (Pass × List Diagnostic)}

theorem Runs.diagnostics (h : Runs units a passes last) :
    last.diagnostics = a.diagnostics ++ passes.flatMap (·.2) := by
  induction h with
  | nil a => simp
  | cons _ hreports _ ih =>
    rw [ih, List.flatMap_cons, ← List.append_assoc, ← hreports]
    rfl

theorem Runs.foldlM (h : Runs units a passes last) :
    (passes.map (·.1)).foldlM (step units) a = .ok last := by
  induction h with
  | nil a => rfl
  | cons hrun _ _ ih =>
    rw [List.map_cons, List.foldlM_cons, step, hrun]
    exact ih

end Pass

theorem Analysis.log_nil (a : Analysis) : a.log [] = a := by
  rw [Analysis.log, List.append_nil]

theorem analyze_eq_foldlM (units : List Program) :
    analyze units = Pass.all.foldlM (Pass.step units) .initial := by
  simp only [Pass.all, List.foldlM_cons, List.foldlM_nil, Pass.step, Pass.run, Pass.completed,
    Except.map, Analysis.log_nil, analyze, bind, Except.bind, pure, Except.pure]
  cases (Analysis.initial.collectDeclarations units).resolveSupertypes units with
  | error _ => rfl
  | ok built =>
    dsimp only
    cases (built.log [.stageReached .parsed .symbolsBuilt]).checkStructure units with
    | error _ => rfl
    | ok structured =>
      dsimp only
      cases (structured.log [.stageReached .symbolsBuilt .structureValidated]).checkObligations
        units <;> rfl

section Final

variable {units : List Program} {a final : Analysis} {cycles : List (List ClassId)}
  {reports : List Diagnostic} {ps : List (TypeDef × ClassId)}
  (h : a.Collected (units.flatMap (·.definitions))) (hu : a.Untangles ps units final cycles reports)
include h hu

omit h in
theorem Analysis.names_final :
    final.symbols.names = a.symbols.names := by
  have hids : final.symbols.classIds = a.symbols.classIds := by
    obtain ⟨n, hbreaks, hlast⟩ := hu.broken
    rw [← hlast, hbreaks.classIds]
    exact classIds_assigned a ps
  rw [SymbolTable.names_eq_map, SymbolTable.names_eq_map, hids]
  refine List.map_congr_left fun id _ => ?_
  obtain ⟨superclass, traits, hinfo⟩ := frame_final hu id
  rw [hinfo]

theorem Analysis.Collected.size_final :
    final.symbols.classes.size = (units.flatMap (·.definitions)).length + 1 := by
  rw [← SymbolTable.length_names, names_final hu, SymbolTable.length_names, h.size]

theorem Analysis.Collected.decl_final :
    ∀ p ∈ numbered (units.flatMap (·.definitions)),
      (final.symbols.classInfo p.2).toClassDecl = p.1.decl := by
  intro p hp
  obtain ⟨superclass, traits, hinfo⟩ := frame_final hu p.2
  rw [hinfo]
  exact h.decl p hp

end Final

theorem exists_runs {units : List Program} {reports : List Diagnostic}
    (hreports : (resolvedUnits units).diagnostics =
      (Analysis.initial.collectDeclarations units).diagnostics ++ reports) :
    ∃ a, Pass.Runs units .initial
        [(.declarations, (Analysis.initial.collectDeclarations units).diagnostics),
         (.supertypes, reports),
         (.initializers, missingInitializers (units.flatMap (·.definitions))),
         (.obligations,
           knownMissingBodies (resolvedUnits units).symbols (units.flatMap (·.definitions)))] a ∧
      a.symbols = (resolvedUnits units).symbols := by
  have h := Analysis.collected units
  obtain ⟨cycles, circles, hu⟩ := untangled_located units
  obtain ⟨vs, hvs, hentries⟩ := exists_visitsOfAll (h.knows)
  have hregistry : (resolvedUnits units).registry =
      (Analysis.initial.collectDeclarations units).registry := hu.registry
  have hfields : (Visit.bareFields "" vs).map (fun p =>
      Diagnostic.missingInitializer p.1.binding p.1.name p.1.type p.2) =
        missingInitializers (units.flatMap (·.definitions)) := by
    rw [← Visit.bareFields_definitionVisits, hentries, Visit.bareFields_entries, List.map_flatMap]
    simp only [List.map_map]
    rfl
  have hbodies : vs.flatMap (Visit.obligations (resolvedUnits units).symbols) =
      knownMissingBodies (resolvedUnits units).symbols (units.flatMap (·.definitions)) := by
    rw [← Visit.obligations_definitionVisits, hentries]
    refine Visit.obligations_entries (fun p hp => h.classOf_occupant hp) fun x hx => ?_
    rw [(Analysis.methodInfos_final hu).1]
    exact h.methodOf_occupant hx
  rw [← hregistry] at hvs
  refine ⟨_, .cons rfl rfl (.cons (b := resolvedUnits units) ?_ hreports
    (.cons (Analysis.checkStructure_eq hvs) ?_
      (.cons (Analysis.checkObligations_eq hvs) ?_ (.nil _)))), rfl⟩
  · rw [Pass.completed, Analysis.log_nil]
    exact hu.result
  · exact congrArg ((resolvedUnits units).diagnostics ++ ·) hfields
  · exact congrArg (((resolvedUnits units).diagnostics ++ _) ++ ·) hbodies

theorem analyze_known_reports (units : List Program) :
    ∃ a, analyze units = .ok a ∧ a.symbols = (resolvedUnits units).symbols ∧
      a.diagnostics = (resolvedUnits units).diagnostics ++
        missingInitializers (units.flatMap (·.definitions)) ++
        knownMissingBodies (resolvedUnits units).symbols (units.flatMap (·.definitions)) := by
  obtain ⟨cycles, circles, hu⟩ := untangled_located units
  obtain ⟨unresolved, -, hresolved⟩ := hu.unresolved
  have hreports : (resolvedUnits units).diagnostics =
      (Analysis.initial.collectDeclarations units).diagnostics ++ (unresolved ++ circles) := by
    rw [hu.reported.1, hresolved, List.append_assoc]
  obtain ⟨a, hruns, hsymbols⟩ := exists_runs hreports
  refine ⟨a, (analyze_eq_foldlM units).trans hruns.foldlM, hsymbols, ?_⟩
  rw [hruns.diagnostics, hreports]
  simp [Analysis.initial]

theorem analyze_reports {units : List Program}
    (htypes : ((units.flatMap (·.definitions)).map (·.signature)).Nodup)
    (hmethods : (((units.flatMap (·.definitions)).flatMap (·.methods)).map (·.signature)).Nodup) :
    ∃ a, analyze units = .ok a ∧ a.symbols = (resolvedUnits units).symbols ∧
      a.diagnostics = (resolvedUnits units).diagnostics ++
        missingInitializers (units.flatMap (·.definitions)) ++
        missingBodies (resolvedUnits units).symbols (units.flatMap (·.definitions)) := by
  rw [← knownMissingBodies_eq _ htypes hmethods]
  exact analyze_known_reports units

theorem registry_of_analyze {units : List Program} {a : Analysis} (ha : analyze units = .ok a) :
    a.registry = (Analysis.initial.collectDeclarations units).registry := by
  obtain ⟨cycles, reports, hu⟩ := untangled_located units
  simp only [analyze, hu.result, bind, Except.bind] at ha
  split at ha
  · cases ha
  next structured hstructured =>
    split at ha
    · cases ha
    next checked hchecked =>
      obtain rfl := Except.ok.inj ha
      exact (Analysis.registry_of_checkObligations hchecked).trans
        ((Analysis.registry_of_checkStructure hstructured).trans hu.registry)

/-! ### Compilations -/

theorem nodup_files_sourceTexts (noPrelude : Bool) (source : String) :
    ((sourceTexts noPrelude source).map (·.1)).Nodup := by
  cases noPrelude <;> simp [sourceTexts]

def startEvents : List Event := [.stageReached .init .lexed, .stageReached .lexed .parsed]

theorem compile_eq_of_error {options : CompilerOptions} {source : String}
    {errors : List SyntaxError}
    (h : parseAll (sourceTexts options.noPrelude source) = .error errors) :
    compile options source = .ok (.stopped .parsed (errors.map .syntaxError)
      (startEvents ++ [.syntaxErrorsFound errors.length])) := by
  rw [compile, h]
  rfl

theorem compile_eq_of_ok {options : CompilerOptions} {source : String} {units : List Program}
    {a : Analysis} (h : parseAll (sourceTexts options.noPrelude source) = .ok units)
    (ha : analyze units = .ok a) :
    compile options source = .ok
      (if a.diagnostics.any Diagnostic.isError then
        .stopped .obligationsValidated a.diagnostics (startEvents ++ a.events)
      else
        .finished options (units.getLast?.getD ⟨[]⟩) a.symbols a.diagnostics
          (startEvents ++ a.events)) := by
  simp only [compile, h, ha, bind, Except.bind]
  split <;> rfl

end Mixin
