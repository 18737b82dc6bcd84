import Mathlib.Data.List.Flatten
import Mixin.Proofs.Analysis.Unimplemented
import Mixin.Proofs.Grammar.Places

/-!
# Values and bodies that are left out

A field in a body without a value, and a method without a body in a class that is not abstract or in
an object, are reported once each, where they are named and in the order in which they are written
(`analyze_reports_omissions`). What else is wrong with the program has no part in this. Only if
several methods stand at the same place, the last one is reported for each of them.
-/

namespace Mixin

/-! ### The rule for bodies -/

/-- A type whose methods need bodies: a class that is not abstract, or an object. -/
def TypeDef.IsConcrete (d : TypeDef) : Prop :=
  d.kind = .«class» ∧ d.modifiers.contains .abstract = false ∨ d.kind = .object

instance (d : TypeDef) : Decidable d.IsConcrete := inferInstanceAs (Decidable (_ ∧ _ ∨ _))

def TypeDef.sketch (d : TypeDef) : TypeSketch := ⟨d.kind, d.name.text, some d.name.span⟩

def Method.sketch (m : Method) : MethodSketch :=
  let parameters := m.parameters.map fun p => p.name.text ++ ": " ++ p.type.render
  let clause := if parameters.isEmpty then "" else "(" ++ String.intercalate ", " parameters ++ ")"
  ⟨m.name.text,
    "def " ++ m.name.text ++ clause ++ (m.result.map fun t => ": " ++ t.render).getD "",
    some m.name.span⟩

def missingOwnBodies (ds : List TypeDef) : List Diagnostic :=
  (ds.filter fun d => d.IsConcrete).flatMap fun d =>
    (d.methods.filter (·.isAbstract)).map fun m => .abstractInConcrete m.sketch d.sketch

/-- What is reported of methods without a body, if each is taken for the last one that stands where
it does. -/
def knownMissingOwnBodies (ds : List TypeDef) : List Diagnostic :=
  (Analysis.ownedMethods ds).flatMap fun x =>
    let y := Analysis.methodOccupant ds x
    if y.2.1.IsConcrete ∧ y.1.isAbstract then [.abstractInConcrete y.1.sketch y.2.1.sketch] else []

theorem Method.sketch_info (m : Method) (c : ClassId) : (m.info c).sketch = m.sketch := by
  have hclause : (m.info c).parameters.map (fun p => MethodInfo.annotated p.name.text p.type) =
      m.parameters.map fun p => p.name.text ++ ": " ++ p.type.render := by
    rw [info, List.map_map]
    rfl
  rw [MethodInfo.sketch, MethodInfo.describe, hclause, sketch]
  cases hresult : m.result with
  | none => simp [info, hresult, MethodInfo.annotated]
  | some type => simp [info, hresult, MethodInfo.annotated, String.append_assoc]

/-- Only the grammar keeps objects from being abstract; the analyses would let them be
incomplete. -/
theorem isConcrete_iff {texts : List (SourceFile × String)} {units : List Program}
    (hparsed : parseAll texts = .ok units) {d : TypeDef} (hd : d ∈ units.flatMap (·.definitions)) :
    d.IsConcrete ↔ ¬ d.MayBeIncomplete := by
  obtain ⟨ts, hdef⟩ := exists_ofTypeDef hparsed hd
  have hobject := hdef.abstract_of_object
  unfold TypeDef.IsConcrete TypeDef.MayBeIncomplete
  cases hkind : d.kind with
  | «class» => simp
  | trait => simp
  | object => simp [hobject hkind]

theorem flatMap_ite_nil {α β : Type} (p : α → Prop) [DecidablePred p] (f : α → List β)
    (l : List α) :
    (l.flatMap fun a => if p a then f a else []) = (l.filter fun a => p a).flatMap f := by
  induction l with
  | nil => rfl
  | cons a l ih => by_cases ha : p a <;> simp [ha, ih]

namespace Analysis

variable {ds : List TypeDef} {t : SymbolTable} {p : TypeDef × ClassId}

theorem missingBody_info (hdecl : (t.classInfo p.2).toClassDecl = p.1.decl) (m : Method) :
    (m.info p.2).missingBody t =
      if m.isAbstract = true ∧ ¬ p.1.MayBeIncomplete then
        [.abstractInConcrete m.sketch p.1.sketch] else [] := by
  have hsketch : (t.classInfo p.2).sketch = p.1.sketch := by
    rw [ClassInfo.sketch, hdecl]
    rfl
  have howner : (m.info p.2).owner = p.2 := rfl
  have habstract : (m.info p.2).isAbstract = m.isAbstract := rfl
  simp only [MethodInfo.missingBody, howner, habstract, hsketch, m.sketch_info,
    ← mayBeIncomplete_iff hdecl, Bool.and_eq_true, Bool.not_eq_true', Bool.not_eq_true]

theorem kind_of_mem_missingBodies
    (hdecl : ∀ p ∈ numbered ds, (t.classInfo p.2).toClassDecl = p.1.decl) {e : Diagnostic}
    (he : e ∈ knownMissingBodies t ds) : e.kind ≠ .missingInitializer := by
  obtain ⟨p, hp, he⟩ := List.mem_flatMap.mp he
  rw [obligations_known (hdecl _ (occupant_mem hp)), List.mem_append] at he
  rcases he with he | he
  · split at he
    · cases he
    · simp [kind_of_mem_unimplemented he]
  · obtain ⟨m, -, he⟩ := List.mem_flatMap.mp he
    simp [kind_of_mem_missingBody he]

theorem filter_missingBodies_own
    (hdecl : ∀ p ∈ numbered ds, (t.classInfo p.2).toClassDecl = p.1.decl)
    (hconcrete : ∀ d ∈ ds, d.IsConcrete ↔ ¬ d.MayBeIncomplete) :
    (knownMissingBodies t ds).filter (fun e => e.kind = .abstractInConcrete) =
      knownMissingOwnBodies ds := by
  rw [knownMissingBodies, knownMissingOwnBodies, ownedMethods, List.filter_flatMap,
    List.flatMap_assoc]
  refine List.flatMap_congr fun p hp => ?_
  have htype : (Visit.obligations t (.type p.1 (occupant ds p).2)).filter
      (fun e => e.kind = .abstractInConcrete) = [] := by
    rw [obligations_known (hdecl _ (occupant_mem hp))]
    split
    · rfl
    · exact filter_of_kind_ne (by decide) fun e he => kind_of_mem_unimplemented he
  rw [List.filter_append, htype, List.nil_append, List.filter_flatMap, List.flatMap_map]
  refine List.flatMap_congr fun m hm => ?_
  have hp' := owner_mem_numbered (methodOccupant_mem (mem_ownedMethods hp hm))
  rw [filter_of_kind_eq fun e he => kind_of_mem_missingBody he, missingBody_info (hdecl _ hp')]
  simp only [← hconcrete _ (mem_of_numbered hp'), and_comm]

end Analysis

theorem knownMissingOwnBodies_eq {ds : List TypeDef}
    (hdistinct : ((ds.flatMap (·.methods)).map (·.signature)).Nodup) :
    knownMissingOwnBodies ds = missingOwnBodies ds := by
  rw [knownMissingOwnBodies, missingOwnBodies, Analysis.ownedMethods, List.flatMap_assoc,
    ← flatMap_ite_nil]
  refine Analysis.flatMap_numbered fun p hp => ?_
  rw [List.flatMap_map]
  refine (List.flatMap_congr fun m hm => ?_ :
    _ = p.1.methods.flatMap fun m => if p.1.IsConcrete ∧ m.isAbstract then
      [.abstractInConcrete m.sketch p.1.sketch] else []).trans ?_
  · rw [Analysis.methodOccupant_eq_self hdistinct (Analysis.mem_ownedMethods hp hm)]
  · by_cases hd : p.1.IsConcrete
    · simp only [hd, true_and, if_true]
      rw [flatMap_ite_nil, List.map_eq_flatMap]
      simp only [Bool.decide_eq_true]
    · simp [hd]

/-! ### The order of the reports -/

theorem TypeDef.sublist_fieldNames (d : TypeDef) :
    (d.fields.map fun f => f.name.span.origin).Sublist
      (d.members.flatMap fun m => [m.name.span.origin]) := by
  rw [fields, List.filterMap_eq_flatMap_toList, List.map_flatMap]
  refine List.Sublist.flatMap_right _ fun m _ => ?_
  cases m with
  | field f => exact List.Sublist.refl _
  | method m => exact List.nil_sublist _

theorem TypeDef.sublist_methodNames (d : TypeDef) :
    (d.methods.map fun m => m.name.span.origin).Sublist
      (d.members.flatMap fun m => [m.name.span.origin]) := by
  rw [methods, List.filterMap_eq_flatMap_toList, List.map_flatMap]
  refine List.Sublist.flatMap_right _ fun m _ => ?_
  cases m with
  | field f => exact List.nil_sublist _
  | method m => exact List.Sublist.refl _

theorem origins_missingInitializers (ds : List TypeDef) :
    ((missingInitializers ds).map fun e => e.location.origin).Sublist
      (ds.flatMap fun d => d.members.flatMap fun m => [m.name.span.origin]) := by
  rw [missingInitializers, List.map_flatMap]
  refine List.Sublist.flatMap_right _ fun d _ => ?_
  rw [List.map_map]
  exact (List.filter_sublist.map _).trans d.sublist_fieldNames

theorem origins_missingOwnBodies (ds : List TypeDef) :
    ((missingOwnBodies ds).map fun e => e.location.origin).Sublist
      (ds.flatMap fun d => d.members.flatMap fun m => [m.name.span.origin]) := by
  rw [missingOwnBodies, List.map_flatMap]
  refine (List.filter_sublist.flatMap _).trans (List.Sublist.flatMap_right _ fun d _ => ?_)
  rw [List.map_map]
  exact (List.filter_sublist.map _).trans d.sublist_methodNames

/-! ### The reports of an analysis -/

open Analysis in
theorem exists_filtered_reports {texts : List (SourceFile × String)} {units : List Program}
    (hparsed : parseAll texts = .ok units) :
    ∃ a, analyze units = .ok a ∧
      a.diagnostics.filter (fun e => e.kind = .missingInitializer) =
        missingInitializers (units.flatMap (·.definitions)) ∧
      a.diagnostics.filter (fun e => e.kind = .abstractInConcrete) =
        knownMissingOwnBodies (units.flatMap (·.definitions)) := by
  obtain ⟨cycles, reports, hu⟩ := untangled_located units
  have hdecl := (Analysis.collected units).decl_final hu
  obtain ⟨a, ha, -, hdiagnostics⟩ := analyze_known_reports units
  refine ⟨a, ha, ?_, ?_⟩
  · rw [hdiagnostics, List.filter_append, List.filter_append, filter_resolvedUnits (by decide),
      filter_of_kind_eq fun e he => kind_of_mem_missingInitializers he, List.nil_append]
    refine List.append_right_eq_self.mpr (List.filter_eq_nil_iff.mpr fun e he heq => ?_)
    exact kind_of_mem_missingBodies hdecl he (of_decide_eq_true heq)
  · rw [hdiagnostics, List.filter_append, List.filter_append, filter_resolvedUnits (by decide),
      filter_of_kind_ne (by decide) fun e he => kind_of_mem_missingInitializers he,
      filter_missingBodies_own hdecl fun d hd => isConcrete_iff hparsed hd]
    rfl

/-- The analysis of definitions, which are written in `texts`, reports all fields without a value,
and nothing else is reported so. -/
structure Analysis.ReportsBareFields (texts : List (SourceFile × String)) (ds : List TypeDef)
    (a : Analysis) : Prop where
  /-- Each field is reported once, where it is named, and with its type. -/
  fields : a.diagnostics.filter (fun e => e.kind = .missingInitializer) = missingInitializers ds
  fieldTexts : (missingInitializers ds).map (fun e => (e.location, e.message)) =
    ds.flatMap fun d => d.bareFields.map fun f => (f.name.span,
      "field " ++ Diagnostic.quoted f.name.text ++ " of " ++ Diagnostic.quoted d.name.text ++
        " has no initializer")
  /-- They come in the order in which the names are written. -/
  fieldsOrdered :
    ((missingInitializers ds).map fun e => e.location.origin).Sublist
      (texts.flatMap fun source => Cursor.origins (TokenStream.ofText source.1 source.2).tokens)

/-- So are all methods without a body in types that need one. -/
structure Analysis.ReportsBareMethods (texts : List (SourceFile × String)) (ds : List TypeDef)
    (a : Analysis) : Prop where
  /-- Each method is reported once, where it is named. -/
  methods : a.diagnostics.filter (fun e => e.kind = .abstractInConcrete) = missingOwnBodies ds
  methodTexts : (missingOwnBodies ds).map (fun e => (e.location, e.message)) =
    (ds.filter fun d => d.IsConcrete).flatMap fun d =>
      (d.methods.filter (·.isAbstract)).map fun m => (m.name.span,
        "abstract method " ++ Diagnostic.quoted m.name.text ++ " in concrete " ++
          d.kind.keyword ++ " " ++ Diagnostic.quoted d.name.text)
  methodsOrdered :
    ((missingOwnBodies ds).map fun e => e.location.origin).Sublist
      (texts.flatMap fun source => Cursor.origins (TokenStream.ofText source.1 source.2).tokens)

end Mixin
