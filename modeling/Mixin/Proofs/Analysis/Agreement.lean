import Mixin.Proofs.Analysis.Reports
import Mixin.Proofs.Symbol.Unplaced

/-!
# Analyses do not depend on places

Where definitions differ in places only, and those of each pair stand in the same file, all analyses
find the same but for places: the same types and members under the same identifiers, the same
hierarchy, and problems that say the same in the same order (`analyze_alike`).
-/

namespace Mixin

/-- Definitions in the same file that differ in places only. -/
structure TypeDef.Alike (d e : TypeDef) : Prop where
  tree : d.unplaced = e.unplaced
  file : d.name.span.file = e.name.span.file

theorem TypeDef.map_unplaced_of_alike {ds es : List TypeDef} (h : List.Forall₂ Alike ds es) :
    ds.map unplaced = es.map unplaced := by
  induction h with
  | nil => rfl
  | cons hd _ ih => rw [List.map_cons, List.map_cons, hd.tree, ih]

/-! ### What definitions declare -/

@[simp] theorem ModifierList.set_unplaced (ms : ModifierList) : ms.unplaced.set = ms.set := by
  simp [set, unplaced, Function.comp_def]

@[simp] theorem Initializer.isGiven_unplaced (i : Initializer) :
    i.unplaced.isGiven = i.isGiven := by
  cases i <;> rfl

@[simp] theorem Method.parameters_unplaced (m : Method) :
    m.unplaced.parameters = m.parameters.map Parameter.unplaced := by
  simp [parameters, unplaced, List.map_flatten]

@[simp] theorem Method.isAbstract_unplaced (m : Method) : m.unplaced.isAbstract = m.isAbstract := by
  simp [isAbstract, unplaced]

theorem Parameter.fieldInfo_unplaced (p : Parameter) (binding : Binding) (owner : ClassId) :
    (p.fieldInfo binding owner).unplaced = p.unplaced.fieldInfo binding owner := rfl

theorem Field.info_unplaced (f : Field) (owner : ClassId) :
    (f.info owner).unplaced = f.unplaced.info owner := by
  simp [info, FieldInfo.unplaced, unplaced, Ident.unplaced]

theorem Method.info_unplaced (m : Method) (owner : ClassId) :
    (m.info owner).unplaced = m.unplaced.info owner := by
  simp only [info, MethodInfo.unplaced, parameters_unplaced, isAbstract_unplaced, List.map_map]
  simp [unplaced, Ident.unplaced, ParameterInfo.unplaced, Parameter.unplaced, Function.comp_def]

theorem TypeDef.Alike.decl {d e : TypeDef} (h : d.Alike e) : d.decl.unplaced = e.decl.unplaced := by
  have hdecl (d : TypeDef) : d.decl.unplaced =
      { d.unplaced.decl with site := some d.name.span.fileOnly } := by
    simp [TypeDef.decl, ClassDecl.unplaced, unplaced, Ident.unplaced, Parent.unplaced,
      NamedType.unplaced, TypeParameter.unplaced, Function.comp_def]
  rw [hdecl, hdecl, h.tree, Span.fileOnly, Span.fileOnly, h.file]

theorem TypeDef.redundantAbstract_unplaced (d : TypeDef) :
    d.redundantAbstract.map Diagnostic.unplaced = d.unplaced.redundantAbstract := by
  have hspan : d.modifiers.unplaced.spanOf? .abstract =
      (d.modifiers.spanOf? .abstract).map fun _ => .topOfFile := by
    simp [ModifierList.spanOf?, ModifierList.unplaced, List.find?_map, Function.comp_def]
  rw [redundantAbstract, redundantAbstract]
  simp only [unplaced, hspan]
  cases d.kind with
  | trait => cases d.modifiers.spanOf? .abstract <;> rfl
  | _ => rfl

namespace Analysis

/-! ### Collecting declarations -/

/-- The same was found but for places. -/
structure Alike (a b : Analysis) : Prop where
  symbols : a.symbols.unplaced = b.symbols.unplaced
  diagnostics : a.diagnostics.map Diagnostic.unplaced = b.diagnostics.map Diagnostic.unplaced

variable {a b : Analysis} {ds es : List TypeDef}

theorem Alike.report (h : a.Alike b) {xs ys : List Diagnostic}
    (hxs : xs.map Diagnostic.unplaced = ys.map Diagnostic.unplaced) :
    (a.report xs).Alike (b.report ys) :=
  ⟨h.symbols, by simp only [Analysis.report, List.map_append, h.diagnostics, hxs]⟩

theorem Alike.log (h : a.Alike b) (xs ys : List Event) : (a.log xs).Alike (b.log ys) :=
  ⟨h.symbols, h.diagnostics⟩

theorem Alike.declare (h : a.Alike b) {ι : Type} {x y z : Declared ι} (hx : x.Unplaces z)
    (hy : y.Unplaces z) (r s : Registry) :
    ({ a with symbols := x.table, registry := r }.report x.diagnostics).Alike
      ({ b with symbols := y.table, registry := s }.report y.diagnostics) := by
  have htables : Alike { a with symbols := x.table, registry := r }
      { b with symbols := y.table, registry := s } :=
    ⟨hx.table.trans hy.table.symm, h.diagnostics⟩
  exact htables.report (hx.diagnostics.trans hy.diagnostics.symm)

theorem Alike.declareField (h : a.Alike b) {f g : FieldInfo} (hf : f.unplaced = g.unplaced)
    (r s : Registry) :
    ({ a with symbols := (a.symbols.declareField f).table, registry := r }.report
        (a.symbols.declareField f).diagnostics).Alike
      ({ b with symbols := (b.symbols.declareField g).table, registry := s }.report
        (b.symbols.declareField g).diagnostics) := by
  have hx := a.symbols.declareField_unplaced f
  rw [h.symbols, hf] at hx
  exact h.declare hx (b.symbols.declareField_unplaced g) r s

theorem Alike.declareMember (h : a.Alike b) (owner : ClassId) {m n : Member}
    (hm : m.unplaced = n.unplaced) : (a.declareMember owner m).Alike (b.declareMember owner n) := by
  cases m with
  | field f =>
    cases n with
    | method n => cases hm
    | field g =>
      have hf : f.unplaced = g.unplaced := Member.field.inj hm
      refine h.declareField ?_ _ _
      rw [Field.info_unplaced, Field.info_unplaced, hf]
  | method m =>
    cases n with
    | field g => cases hm
    | method n =>
      have hinfo : (m.info owner).unplaced = (n.info owner).unplaced := by
        rw [Method.info_unplaced, Method.info_unplaced, Member.method.inj hm]
      have hx := a.symbols.declareMethod_unplaced (m.info owner)
      rw [h.symbols, hinfo] at hx
      exact h.declare hx (b.symbols.declareMethod_unplaced (n.info owner)) _ _

theorem Alike.declareMembers (h : a.Alike b) (owner : ClassId) {ms ns : List Member}
    (hms : ms.map Member.unplaced = ns.map Member.unplaced) :
    (ms.foldl (fun a m => a.declareMember owner m) a).Alike
      (ns.foldl (fun a m => a.declareMember owner m) b) := by
  induction ms generalizing a b ns with
  | nil =>
    obtain rfl := List.map_eq_nil_iff.mp hms.symm
    exact h
  | cons m ms ih =>
    cases ns with
    | nil => cases hms
    | cons n ns =>
      obtain ⟨hm, hrest⟩ := List.cons.inj hms
      exact ih (h.declareMember owner hm) hrest

theorem Alike.declareParameters (h : a.Alike b) (owner : ClassId) {ps qs : List Parameter}
    (hps : ps.map Parameter.unplaced = qs.map Parameter.unplaced) :
    (a.declareParameters owner ps).Alike (b.declareParameters owner qs) := by
  have hmap (ps : List Parameter) :
      (distinctBy (fun p => p.name.text) [] ps).map Parameter.unplaced =
        distinctBy (fun p => p.name.text) [] (ps.map Parameter.unplaced) :=
    distinctBy_map Parameter.unplaced (fun p => p.name.text) [] ps
  have hdistinct := congrArg (distinctBy (fun p => p.name.text) []) hps
  rw [← hmap, ← hmap] at hdistinct
  rw [Analysis.declareParameters, Analysis.declareParameters]
  generalize distinctBy (fun p : Parameter => p.name.text) [] ps = us at hdistinct
  generalize distinctBy (fun p : Parameter => p.name.text) [] qs = vs at hdistinct
  induction us generalizing a b vs with
  | nil =>
    obtain rfl := List.map_eq_nil_iff.mp hdistinct.symm
    exact h
  | cons p us ih =>
    cases vs with
    | nil => cases hdistinct
    | cons q vs =>
      obtain ⟨hp, hrest⟩ := List.cons.inj hdistinct
      have hbinding : p.binding = q.binding := by
        have hunplaced := congrArg Parameter.binding hp
        exact hunplaced
      rw [List.foldl_cons, List.foldl_cons, hbinding]
      refine ih ?_ vs hrest
      cases q.binding with
      | none => exact h
      | some binding =>
        refine h.declareField ?_ _ _
        rw [Parameter.fieldInfo_unplaced, Parameter.fieldInfo_unplaced, hp]

theorem Alike.declareType (h : a.Alike b) {d e : TypeDef} (hde : d.Alike e) :
    (a.declareType d).Alike (b.declareType e) := by
  have hx := a.symbols.declareClass_unplaced d.decl
  rw [h.symbols, hde.decl] at hx
  have hy := b.symbols.declareClass_unplaced e.decl
  have hid : (a.symbols.declareClass d.decl).id = (b.symbols.declareClass e.decl).id :=
    hx.id.trans hy.id.symm
  have habstract : d.redundantAbstract.map Diagnostic.unplaced =
      e.redundantAbstract.map Diagnostic.unplaced := by
    rw [TypeDef.redundantAbstract_unplaced, TypeDef.redundantAbstract_unplaced, hde.tree]
  have hhead : (a.declareHead d).1.Alike (b.declareHead e).1 := by
    have htables : Alike
        { a with
          symbols := (a.symbols.declareClass d.decl).table
          registry := a.registry.addClass d (a.symbols.declareClass d.decl).id }
        { b with
          symbols := (b.symbols.declareClass e.decl).table
          registry := b.registry.addClass e (b.symbols.declareClass e.decl).id } :=
      ⟨hx.table.trans hy.table.symm, h.diagnostics⟩
    refine (htables.report ?_).log _ _
    rw [List.map_append, List.map_append, habstract, hx.diagnostics, hy.diagnostics]
  have hnames : (SymbolTable.checkParameters (d.parameters.map (·.name))).map Diagnostic.unplaced =
      (SymbolTable.checkParameters (e.parameters.map (·.name))).map Diagnostic.unplaced := by
    have htree : d.unplaced.parameters.map (·.name) = e.unplaced.parameters.map (·.name) := by
      rw [hde.tree]
    have hmap (d : TypeDef) : d.unplaced.parameters.map (·.name) =
        (d.parameters.map (·.name)).map Ident.unplaced := by
      simp [TypeDef.unplaced, Parameter.unplaced, Function.comp_def]
    rw [← SymbolTable.checkParameters_unplaced, ← hmap, htree, hmap,
      SymbolTable.checkParameters_unplaced]
  have hparameters : d.parameters.map Parameter.unplaced = e.parameters.map Parameter.unplaced :=
    congrArg TypeDef.parameters hde.tree
  have hmembers : d.members.map Member.unplaced = e.members.map Member.unplaced :=
    congrArg TypeDef.members hde.tree
  have hall := ((hhead.report hnames).declareParameters
    (a.symbols.declareClass d.decl).id hparameters).declareMembers
      (a.symbols.declareClass d.decl).id hmembers
  rw [Analysis.declareType, Analysis.declareType]
  simp only [declareHead, hid] at hall ⊢
  exact hall

theorem Alike.foldl (h : a.Alike b) (hds : List.Forall₂ TypeDef.Alike ds es) :
    (ds.foldl Analysis.declareType a).Alike (es.foldl Analysis.declareType b) := by
  induction hds generalizing a b with
  | nil => exact h
  | cons hde _ ih => exact ih (h.declareType hde)

theorem Alike.collectDeclarations {units units' : List Program}
    (h : List.Forall₂ TypeDef.Alike (units.flatMap (·.definitions))
      (units'.flatMap (·.definitions))) :
    (Analysis.initial.collectDeclarations units).Alike
      (Analysis.initial.collectDeclarations units') := by
  have hstart : Analysis.initial.Alike Analysis.initial := ⟨rfl, rfl⟩
  exact (hstart.foldl h).log _ _

end Analysis

/-! ### Resolving supertypes -/

def Inheritance.unplaced (e : Inheritance) : Inheritance := { e with span := .topOfFile }

def Resolution.unplaced (r : Resolution) : Resolution :=
  { r with
    edges := r.edges.map Inheritance.unplaced
    diagnostics := r.diagnostics.map Diagnostic.unplaced }

namespace Resolution

variable (t : SymbolTable) (d : TypeDef) (heir : ClassId)

theorem addParent_unplaced (r : Resolution) (name : Ident) (position : Nat) :
    (addParent t d heir r (name, position)).unplaced =
      addParent t.unplaced d.unplaced heir r.unplaced (name.unplaced, position) := by
  have htext : name.unplaced.text = name.text := rfl
  simp only [addParent, htext, SymbolTable.lookup?_unplaced]
  cases t.lookup? name.text with
  | none => simp [unplaced, Diagnostic.unplaced, TypeDef.unplaced, Ident.unplaced]
  | some id =>
    have hkind : (t.unplaced.classInfo id).kind = (t.classInfo id).kind := by
      rw [SymbolTable.classInfo_unplaced]
      rfl
    simp only [hkind]
    split <;> simp [unplaced, Inheritance.unplaced, Ident.unplaced]

theorem addParents_unplaced (r : Resolution) (written : List Ident) (position : Nat) :
    ((written.zipIdx position).foldl (addParent t d heir) r).unplaced =
      ((written.map Ident.unplaced).zipIdx position).foldl
        (addParent t.unplaced d.unplaced heir) r.unplaced := by
  induction written generalizing r position with
  | nil => rfl
  | cons name written ih =>
    rw [List.map_cons, List.zipIdx_cons, List.zipIdx_cons, List.foldl_cons, List.foldl_cons, ih,
      addParent_unplaced]

theorem addMarkers_unplaced (r : Resolution) (markers : List String) :
    (markers.foldl (addMarker t d heir) r).unplaced =
      markers.foldl (addMarker t.unplaced d.unplaced heir) r.unplaced := by
  induction markers generalizing r with
  | nil => rfl
  | cons marker markers ih =>
    have hstep : (addMarker t d heir r marker).unplaced =
        addMarker t.unplaced d.unplaced heir r.unplaced marker := by
      have htraits : r.unplaced.traits = r.traits := rfl
      simp only [addMarker, SymbolTable.lookup?_unplaced, htraits]
      cases t.lookup? marker with
      | none => rfl
      | some id =>
        simp only
        split
        · rfl
        · simp [unplaced, Inheritance.unplaced, TypeDef.unplaced]
    rw [List.foldl_cons, List.foldl_cons, ih, hstep]

theorem ofTypeDef_unplaced :
    (ofTypeDef t d heir).unplaced = ofTypeDef t.unplaced d.unplaced heir := by
  have hwritten : (d.unplaced.parents.map fun p => p.type.name) =
      (d.parents.map fun p => p.type.name).map Ident.unplaced := by
    simp [TypeDef.unplaced, Parent.unplaced, NamedType.unplaced, Function.comp_def]
  have hcase : d.unplaced.isCase = d.isCase := d.modifiers.contains_unplaced .case
  have hstart : (⟨none, [], [], []⟩ : Resolution).unplaced = ⟨none, [], [], []⟩ := rfl
  simp only [ofTypeDef, hwritten, hcase]
  split
  · rw [addMarkers_unplaced, addParents_unplaced, hstart]
  · rw [addParents_unplaced, hstart]

end Resolution

namespace Analysis

theorem numbered_unplaced (ds : List TypeDef) :
    numbered (ds.map TypeDef.unplaced) = (numbered ds).map fun p => (p.1.unplaced, p.2) := by
  simp [numbered, List.zipIdx_map, Function.comp_def]

theorem assigned_unplaced (t s : SymbolTable) (ps : List (TypeDef × ClassId)) :
    (ps.foldl (assign t) s).unplaced =
      (ps.map fun p => (p.1.unplaced, p.2)).foldl (assign t.unplaced) s.unplaced := by
  induction ps generalizing s with
  | nil => rfl
  | cons p ps ih =>
    have hstep : (assign t s p).unplaced = assign t.unplaced s.unplaced (p.1.unplaced, p.2) := by
      simp only [assign, ← Resolution.ofTypeDef_unplaced, SymbolTable.setSupertypes_unplaced]
      rfl
    rw [List.foldl_cons, ih, hstep, List.map_cons, List.foldl_cons]

variable {a b : Analysis} {ds es : List TypeDef}

theorem Alike.resolved (h : a.Alike b) (hds : ds.map TypeDef.unplaced = es.map TypeDef.unplaced) :
    (a.resolved ds).Alike (b.resolved es) := by
  have hparents (a : Analysis) (ds : List TypeDef) :
      ((numbered ds).flatMap fun p =>
          (Resolution.ofTypeDef a.symbols p.1 p.2).diagnostics).map Diagnostic.unplaced =
        (numbered (ds.map TypeDef.unplaced)).flatMap fun p =>
          (Resolution.ofTypeDef a.symbols.unplaced p.1 p.2).diagnostics := by
    rw [numbered_unplaced, List.flatMap_map, List.map_flatMap]
    refine List.flatMap_congr fun p _ => ?_
    rw [← Resolution.ofTypeDef_unplaced]
    rfl
  refine ⟨?_, ?_⟩
  · simp only [Analysis.assigned, assigned_unplaced, ← numbered_unplaced, hds, h.symbols]
  · simp only [Analysis.assigned, List.map_append, h.diagnostics, hparents, hds, h.symbols]

theorem Alike.resolvedEdges (h : a.Alike b)
    (hds : ds.map TypeDef.unplaced = es.map TypeDef.unplaced) :
    (a.resolvedEdges ds).map Inheritance.unplaced =
      (b.resolvedEdges es).map Inheritance.unplaced := by
  have hedges (a : Analysis) (ds : List TypeDef) :
      (a.assignedEdges (numbered ds)).map Inheritance.unplaced =
        (numbered (ds.map TypeDef.unplaced)).flatMap fun p =>
          (Resolution.ofTypeDef a.symbols.unplaced p.1 p.2).edges := by
    rw [numbered_unplaced, List.flatMap_map, assignedEdges, List.map_flatMap]
    refine List.flatMap_congr fun p _ => ?_
    rw [← Resolution.ofTypeDef_unplaced]
    rfl
  rw [hedges, hedges, hds, h.symbols]

end Analysis

/-! ### Breaking circles -/

namespace Untangling

def unplaced (u : Untangling) : Untangling :=
  { u with
    symbols := u.symbols.unplaced
    edges := u.edges.map Inheritance.unplaced
    diagnostics := u.diagnostics.map Diagnostic.unplaced }

variable (u : Untangling)

theorem graph_unplaced : u.unplaced.graph = u.graph := by
  simp [graph, unplaced, Inheritance.unplaced, Function.comp_def]

theorem describeLink_unplaced (link : ClassId × ClassId) :
    u.unplaced.describeLink link = (u.describeLink link).unplaced := by
  have hspan : ((u.unplaced.edges.find? fun e => e.heir = link.1 ∧ e.parent = link.2).map
      (·.span)).getD .topOfFile = .topOfFile := by
    rw [unplaced, List.find?_map, Option.map_map]
    cases List.find? _ u.edges <;> rfl
  rw [describeLink, hspan]
  simp only [unplaced, SymbolTable.classInfo_unplaced]
  rfl

theorem dropLink_unplaced (link : ClassId × ClassId) :
    (u.dropLink link).unplaced = u.unplaced.dropLink link := by
  simp only [dropLink, unplaced, SymbolTable.removeSupertype_unplaced, List.filter_map]
  rfl

theorem dropLinks_unplaced (links : List (ClassId × ClassId)) (u : Untangling) :
    (links.foldl dropLink u).unplaced = links.foldl dropLink u.unplaced := by
  induction links generalizing u with
  | nil => rfl
  | cons link links ih => rw [List.foldl_cons, List.foldl_cons, ih, dropLink_unplaced]

theorem breakCycle_unplaced (cycle : List ClassId) :
    (u.breakCycle cycle).unplaced = u.unplaced.breakCycle cycle := by
  have hdescribed : u.unplaced.described cycle = (u.described cycle).map Ident.unplaced := by
    rw [described, described, List.map_map]
    exact List.map_congr_left fun link _ => u.describeLink_unplaced link
  by_cases hcycle : cycle = []
  · subst hcycle
    rfl
  · obtain ⟨first, rest, hd⟩ := u.described_ne_nil hcycle
    have hd' : u.unplaced.described cycle = first.unplaced :: rest.map Ident.unplaced := by
      rw [hdescribed, hd, List.map_cons]
    rw [breakCycle_of_described hd, breakCycle_of_described hd', dropLinks_unplaced]
    simp [unplaced, Diagnostic.unplaced]

theorem round_unplaced (cycles : List (List ClassId)) (u : Untangling) :
    (cycles.foldl breakCycle u).unplaced = cycles.foldl breakCycle u.unplaced := by
  induction cycles generalizing u with
  | nil => rfl
  | cons cycle cycles ih => rw [List.foldl_cons, List.foldl_cons, ih, breakCycle_unplaced]

theorem breakCycles_unplaced :
    u.breakCycles.unplaced = u.unplaced.breakCycles := by
  induction hn : u.edges.length using Nat.strongRecOn generalizing u with
  | ind n ih =>
    subst hn
    have hlength (u : Untangling) : u.unplaced.edges.length = u.edges.length := by simp [unplaced]
    rw [breakCycles, breakCycles, graph_unplaced]
    cases u.graph.cycles with
    | nil => rfl
    | cons cycle cycles =>
      simp only [← round_unplaced, hlength]
      split
      next hlt => exact ih _ hlt _ rfl
      next => rfl

end Untangling

namespace Analysis

theorem Alike.untangle {a b : Analysis} (h : a.Alike b) {xs ys : List Inheritance}
    (hedges : xs.map Inheritance.unplaced = ys.map Inheritance.unplaced) :
    (a.untangle xs).Alike (b.untangle ys) := by
  have hbroken : (Untangling.breakCycles ⟨a.symbols, xs, [], []⟩).unplaced =
      (Untangling.breakCycles ⟨b.symbols, ys, [], []⟩).unplaced := by
    rw [Untangling.breakCycles_unplaced, Untangling.breakCycles_unplaced, Untangling.unplaced,
      Untangling.unplaced, h.symbols, hedges]
  have htables : Alike
      { a with symbols := (Untangling.breakCycles ⟨a.symbols, xs, [], []⟩).symbols }
      { b with symbols := (Untangling.breakCycles ⟨b.symbols, ys, [], []⟩).symbols } :=
    ⟨congrArg Untangling.symbols hbroken, h.diagnostics⟩
  exact (htables.report (congrArg Untangling.diagnostics hbroken)).log _ _

end Analysis

/-! ### Checks -/

theorem TypeDef.fields_unplaced (d : TypeDef) :
    d.unplaced.fields = d.fields.map Field.unplaced := by
  simp only [fields, unplaced, List.filterMap_map, List.map_filterMap]
  refine List.filterMap_congr fun m _ => ?_
  cases m <;> rfl

theorem TypeDef.methods_unplaced (d : TypeDef) :
    d.unplaced.methods = d.methods.map Method.unplaced := by
  simp only [methods, unplaced, List.filterMap_map, List.map_filterMap]
  refine List.filterMap_congr fun m _ => ?_
  cases m <;> rfl

theorem missingInitializers_unplaced (ds : List TypeDef) :
    (missingInitializers ds).map Diagnostic.unplaced =
      missingInitializers (ds.map TypeDef.unplaced) := by
  have hbare (d : TypeDef) : d.unplaced.bareFields = d.bareFields.map Field.unplaced := by
    have hgiven (f : Field) : f.unplaced.initializer.isGiven = f.initializer.isGiven :=
      f.initializer.isGiven_unplaced
    simp only [TypeDef.bareFields, TypeDef.fields_unplaced, List.filter_map, Function.comp_def,
      hgiven]
  rw [missingInitializers, missingInitializers, List.map_flatMap, List.flatMap_map]
  refine List.flatMap_congr fun d _ => ?_
  rw [hbare, List.map_map, List.map_map]
  rfl

theorem Visit.outstanding_unplaced (t : SymbolTable) (id : ClassId) :
    outstanding t.unplaced id = (outstanding t id).map MethodInfo.unplaced := by
  have hmay : (t.unplaced.classInfo id).mayBeIncomplete = (t.classInfo id).mayBeIncomplete := by
    rw [SymbolTable.classInfo_unplaced]
    rfl
  have hinfos : (t.abstractMembers id).map t.unplaced.methodInfo =
      ((t.abstractMembers id).map t.methodInfo).map MethodInfo.unplaced := by
    rw [List.map_map]
    exact List.map_congr_left fun m _ => t.methodInfo_unplaced m
  rw [outstanding, outstanding, hmay, SymbolTable.abstractMembers_unplaced, hinfos]
  split
  · rfl
  · rw [List.filter_map]
    rfl

theorem Visit.obligations_unplaced (t : SymbolTable) (d : TypeDef) (id : ClassId) :
    (obligations t.unplaced (.type d.unplaced id)).map Diagnostic.unplaced =
      (obligations t (.type d id)).map Diagnostic.unplaced := by
  have hmissing : ((outstanding t.unplaced id).map fun m => Diagnostic.unimplementedMember
        (t.unplaced.classInfo id).sketch m.sketch (t.unplaced.classInfo m.owner).name).map
          Diagnostic.unplaced =
      ((outstanding t id).map fun m => Diagnostic.unimplementedMember
        (t.classInfo id).sketch m.sketch (t.classInfo m.owner).name).map Diagnostic.unplaced := by
    rw [outstanding_unplaced, List.map_map, List.map_map, List.map_map]
    refine List.map_congr_left fun m _ => ?_
    simp only [Function.comp_apply, Diagnostic.unplaced, SymbolTable.classInfo_unplaced,
      ClassInfo.sketch_unplaced, MethodInfo.sketch_unplaced]
    rfl
  have hkind : d.unplaced.kind = d.kind := rfl
  simp only [obligations, hkind]
  cases d.kind with
  | trait => rfl
  | «class» | object => exact hmissing

theorem MethodInfo.missingBody_unplaced (t : SymbolTable) (m : MethodInfo) :
    (m.unplaced.missingBody t.unplaced).map Diagnostic.unplaced =
      (m.missingBody t).map Diagnostic.unplaced := by
  have howner : t.unplaced.classInfo m.unplaced.owner = (t.classInfo m.owner).unplaced :=
    t.classInfo_unplaced m.owner
  have hasked : (m.unplaced.isAbstract && !(t.classInfo m.owner).unplaced.mayBeIncomplete) =
      (m.isAbstract && !(t.classInfo m.owner).mayBeIncomplete) := rfl
  simp only [missingBody, howner, hasked]
  split
  · simp only [List.map_cons, List.map_nil, Diagnostic.unplaced, sketch_unplaced,
      ClassInfo.sketch_unplaced]
  · rfl

theorem missingBodies_unplaced (t : SymbolTable) (ds : List TypeDef) :
    (missingBodies t.unplaced (ds.map TypeDef.unplaced)).map Diagnostic.unplaced =
      (missingBodies t ds).map Diagnostic.unplaced := by
  rw [missingBodies, missingBodies, Analysis.numbered_unplaced, List.flatMap_map, List.map_flatMap,
    List.map_flatMap]
  refine List.flatMap_congr fun p _ => ?_
  rw [List.map_append, List.map_append, Visit.obligations_unplaced, TypeDef.methods_unplaced,
    List.flatMap_map, List.map_flatMap, List.map_flatMap]
  refine congrArg _ (List.flatMap_congr fun m _ => ?_)
  rw [← Method.info_unplaced, MethodInfo.missingBody_unplaced]

/-! ### All analyses -/

theorem resolvedUnits_alike {units units' : List Program}
    (htypes : ((units.flatMap (·.definitions)).map (·.signature)).Nodup)
    (htypes' : ((units'.flatMap (·.definitions)).map (·.signature)).Nodup)
    (h : List.Forall₂ TypeDef.Alike (units.flatMap (·.definitions))
      (units'.flatMap (·.definitions))) :
    (resolvedUnits units).Alike (resolvedUnits units') := by
  have hcollected := Analysis.Alike.collectDeclarations h
  have htrees := TypeDef.map_unplaced_of_alike h
  rw [resolvedUnits, resolvedUnits, Analysis.located_eq_numbered htypes,
    Analysis.located_eq_numbered htypes']
  exact (hcollected.resolved htrees).untangle (hcollected.resolvedEdges htrees)

theorem analyze_alike {texts texts' : List (SourceFile × String)} {units units' : List Program}
    (hfiles : (texts.map (·.1)).Nodup) (hparsed : parseAll texts = .ok units)
    (hfiles' : (texts'.map (·.1)).Nodup) (hparsed' : parseAll texts' = .ok units')
    (h : List.Forall₂ TypeDef.Alike (units.flatMap (·.definitions))
      (units'.flatMap (·.definitions))) :
    ∃ a b, analyze units = .ok a ∧ analyze units' = .ok b ∧ a.Alike b := by
  have htypes := nodup_signatures hfiles hparsed
  have htypes' := nodup_signatures hfiles' hparsed'
  obtain ⟨a, ha, hsymbols, hdiagnostics⟩ := analyze_reports htypes
    (nodup_methodSignatures hfiles hparsed)
  obtain ⟨b, hb, hsymbols', hdiagnostics'⟩ := analyze_reports htypes'
    (nodup_methodSignatures hfiles' hparsed')
  have hresolved := resolvedUnits_alike htypes htypes' h
  have htrees := TypeDef.map_unplaced_of_alike h
  refine ⟨a, b, ha, hb, ?_, ?_⟩
  · rw [hsymbols, hsymbols', hresolved.symbols]
  · have hfields : (missingInitializers (units.flatMap (·.definitions))).map Diagnostic.unplaced =
        (missingInitializers (units'.flatMap (·.definitions))).map Diagnostic.unplaced := by
      rw [missingInitializers_unplaced, missingInitializers_unplaced, htrees]
    have hbodies : (missingBodies (resolvedUnits units).symbols
          (units.flatMap (·.definitions))).map Diagnostic.unplaced =
        (missingBodies (resolvedUnits units').symbols
          (units'.flatMap (·.definitions))).map Diagnostic.unplaced := by
      rw [← missingBodies_unplaced, htrees, hresolved.symbols, missingBodies_unplaced]
    simp only [hdiagnostics, hdiagnostics', List.map_append, hresolved.diagnostics, hfields,
      hbodies]

end Mixin
