import Mathlib.Data.List.Flatten
import Mixin.Proofs.Analysis.Reports
import Mixin.Proofs.Analysis.Scopes
import Mixin.Proofs.Grammar.Places
import Mixin.Proofs.Symbol.Runs

/-!
# The registry of a program

Collecting the declarations of a program declares its types and members in the order in which they
are written, each by one call, and enters the identifiers that the calls return. As definitions
stand at different places, the registry holds for each of them the identifier returned for it and
for no other (`collectDeclarations_registers`), also where definitions share a name.
-/

namespace Mixin

/-! ### What is declared -/

def Declaration.fieldSpan? : Declaration → Option Span
  | parameter p _ => some p.span
  | member (.field f) => some f.span
  | member (.method _) => none

def Registry.memberOf? (r : Registry) : Declaration → Option MemberId
  | .parameter p _ => (r.parameterField? p).map .field
  | .member (.field f) => (r.fieldOf f).toOption.map .field
  | .member (.method m) => (r.methodOf m).toOption.map .method

/-- What is declared by one call: a type, with its identifier, or a member of a type. -/
inductive Node where
  | type (d : TypeDef) (id : ClassId)
  | member (owner : ClassId) (x : Declaration)

namespace Node

def ofDefinitions (ds : List TypeDef) : List Node :=
  (Analysis.numbered ds).flatMap fun p => type p.1 p.2 :: p.1.declarations.map (member p.2)

def fieldSpan? : Node → Option Span
  | type .. => none
  | member _ x => x.fieldSpan?

def member? : Node → Option (ClassId × Declaration)
  | type .. => none
  | member owner x => some (owner, x)

/-- The call declares the node as it is written, and the registry holds the identifier that the call
returned. -/
def Registered (r : Registry) : Node → Entry → Prop
  | type d id, e => (∃ reports, e = .type d.decl id reports) ∧ r.classOf d = .ok id
  | member owner x, e => ∃ id, e.member? = some (x.info owner, id) ∧ r.memberOf? x = some id

/-- The registry of an analysis leads from the node to what the node declares. -/
def Described (a : Analysis) : Node → Prop
  | type d id => a.registry.classOf d = .ok id ∧ (a.symbols.classInfo id).toClassDecl = d.decl
  | member owner x =>
    ∃ id, a.registry.memberOf? x = some id ∧ a.symbols.memberInfo id = x.info owner

end Node

namespace Analysis

/-! ### Collecting -/

def Enters (r : Registry) (x : Declaration) : MemberId → Prop
  | .field id => ∃ span, x.fieldSpan? = some span ∧ (span, id) ∈ r.fields
  | .method id => ∃ m, x = .member (.method m) ∧ (m.signature, id) ∈ r.methods

/-- The call declares the node, and an entry was made of the identifier it returned. -/
def Entered (r : Registry) : Node → Entry → Prop
  | .type d id, e => ∃ reports, e = .type d.decl id reports
  | .member owner x, e => ∃ id, e.member? = some (x.info owner, id) ∧ Enters r x id

/-- The calls in `log`, one for each node, made the table and the registry. -/
structure Journaled (nodes : List Node) (a : Analysis) (log : History) : Prop where
  run : Run log a.symbols
  entered : List.Forall₂ (Entered a.registry) nodes log
  spans : a.registry.fields.map (·.1) = (nodes.filterMap Node.fieldSpan?).reverse

theorem Entered.mono {r r' : Registry} (hfields : r.fields ⊆ r'.fields)
    (hmethods : r.methods ⊆ r'.methods) {node : Node} {e : Entry} (h : Entered r node e) :
    Entered r' node e := by
  cases node with
  | type => exact h
  | member owner x =>
    obtain ⟨id, hmember, henters⟩ := h
    refine ⟨id, hmember, ?_⟩
    cases id with
    | field id =>
      obtain ⟨span, hspan, hmem⟩ := henters
      exact ⟨span, hspan, hfields hmem⟩
    | method id =>
      obtain ⟨m, hm, hmem⟩ := henters
      exact ⟨m, hm, hmethods hmem⟩

variable {ns : List Node} {a : Analysis} {log : History} {owner : ClassId}

theorem Journaled.concat (h : Journaled ns a log) {a' : Analysis} {node : Node} {e : Entry}
    (hrun : Run (log ++ [e]) a'.symbols) (hfields : a.registry.fields ⊆ a'.registry.fields)
    (hmethods : a.registry.methods ⊆ a'.registry.methods) (hentered : Entered a'.registry node e)
    (hspans : a'.registry.fields.map (·.1) =
      node.fieldSpan?.toList ++ a.registry.fields.map (·.1)) :
    Journaled (ns ++ [node]) a' (log ++ [e]) where
  run := hrun
  entered := List.rel_append (h.entered.imp fun _ _ => Entered.mono hfields hmethods)
    (.cons hentered .nil)
  spans := by
    rw [hspans, h.spans, List.filterMap_append, List.reverse_append]
    cases hspan : node.fieldSpan? <;> simp [hspan]

theorem Journaled.declare (h : Journaled ns a log) (howner : log.Returned owner)
    (x : Declaration) :
    ∃ e, Journaled (ns ++ [.member owner x]) (declare owner a x) (log ++ [e]) := by
  cases x with
  | parameter p binding =>
    refine ⟨_, h.concat (h.run.call (.field (p.fieldInfo binding owner)) howner) ?_ ?_ ?_ ?_⟩
    · exact List.subset_cons_self ..
    · exact List.Subset.refl _
    · exact ⟨_, rfl, p.span, rfl, List.mem_cons_self ..⟩
    · rfl
  | member m =>
    cases m with
    | field f =>
      refine ⟨_, h.concat (h.run.call (.field (f.info owner)) howner) ?_ ?_ ?_ ?_⟩
      · exact List.subset_cons_self ..
      · exact List.Subset.refl _
      · exact ⟨_, rfl, f.span, rfl, List.mem_cons_self ..⟩
      · rfl
    | method m =>
      refine ⟨_, h.concat (h.run.call (.method (m.info owner)) howner) ?_ ?_ ?_ ?_⟩
      · exact List.Subset.refl _
      · exact List.subset_cons_self ..
      · exact ⟨_, rfl, m, rfl, List.mem_cons_self ..⟩
      · rfl

theorem Journaled.foldl (h : Journaled ns a log) (howner : log.Returned owner)
    (xs : List Declaration) : ∃ more, Journaled (ns ++ xs.map (.member owner))
      (xs.foldl (Analysis.declare owner) a) (log ++ more) := by
  induction xs generalizing ns a log with
  | nil => exact ⟨[], by simpa using h⟩
  | cons x xs ih =>
    obtain ⟨e, hstep⟩ := h.declare howner x
    obtain ⟨more, hmore⟩ := ih hstep (howner.append [e])
    refine ⟨e :: more, ?_⟩
    simpa using hmore

/-- The head of a type is a call, and the identifier it returns is the one its members belong to. -/
theorem Journaled.headed (h : Journaled ns a log) (d : TypeDef) :
    ∃ e, Journaled (ns ++ [.type d ⟨a.symbols.classes.size⟩]) (a.headed d) (log ++ [e]) ∧
      History.Returned (log ++ [e]) ⟨a.symbols.classes.size⟩ := by
  refine ⟨_, h.concat (h.run.call (.type d.decl) trivial) ?_ ?_ ?_ ?_, ?_⟩
  · exact List.Subset.refl _
  · exact List.Subset.refl _
  · exact ⟨_, rfl⟩
  · rfl
  · exact History.returned_concat ..

theorem Journaled.declareType (h : Journaled ns a log) (d : TypeDef) :
    ∃ more, Journaled (ns ++ (.type d ⟨a.symbols.classes.size⟩ ::
      d.declarations.map (.member ⟨a.symbols.classes.size⟩))) (a.declareType d) (log ++ more) := by
  obtain ⟨e, hhead, howner⟩ := h.headed d
  obtain ⟨more, hmore⟩ := hhead.foldl howner d.declarations
  refine ⟨e :: more, ?_⟩
  rw [declareType_eq_foldl]
  simpa using hmore

theorem Collected.journaled_foldl {ds : List TypeDef} (hc : Collected ds a)
    (h : Journaled (Node.ofDefinitions ds) a log) (rest : List TypeDef) :
    ∃ more, Journaled (Node.ofDefinitions (ds ++ rest)) (rest.foldl Analysis.declareType a)
      (log ++ more) := by
  induction rest generalizing ds a log with
  | nil => exact ⟨[], by simpa using h⟩
  | cons d rest ih =>
    obtain ⟨more, hmore⟩ := h.declareType d
    have hnodes : Node.ofDefinitions (ds ++ [d]) = Node.ofDefinitions ds ++
        (.type d ⟨a.symbols.classes.size⟩ ::
          d.declarations.map (.member ⟨a.symbols.classes.size⟩)) := by
      rw [Node.ofDefinitions, numbered_concat, List.flatMap_append, hc.size]
      simp [Node.ofDefinitions]
    rw [← hnodes] at hmore
    obtain ⟨others, hothers⟩ := ih (hc.declareType d) hmore
    exact ⟨more ++ others, by simpa using hothers⟩

/-- The table and the registry of a program are made by one call for each definition, class
parameter with a binding, and member. -/
theorem exists_journal (units : List Program) :
    ∃ log, Journaled (Node.ofDefinitions (units.flatMap (·.definitions)))
      (Analysis.initial.collectDeclarations units) log := by
  have hempty : Journaled (Node.ofDefinitions []) Analysis.initial [] := ⟨.start, .nil, rfl⟩
  obtain ⟨log, h⟩ := Collected.initial.journaled_foldl hempty (units.flatMap (·.definitions))
  exact ⟨log, h.run, h.entered, h.spans⟩

/-! ### Looking nodes up -/

theorem sublist_declaredSpans (d : TypeDef) :
    (d.declarations.filterMap Declaration.fieldSpan?).Sublist d.fieldSpans := by
  have hparameters (ps : List Parameter) :
      ((ps.filterMap fun p => p.binding.map (Declaration.parameter p)).filterMap
        Declaration.fieldSpan?).Sublist (ps.map (·.span)) := by
    induction ps with
    | nil => exact List.Sublist.refl []
    | cons p ps ih =>
      cases hbinding : p.binding with
      | none => simpa [hbinding] using ih.cons p.span
      | some binding => simpa [hbinding, Declaration.fieldSpan?] using ih
  have hfields : (d.members.map Declaration.member).filterMap Declaration.fieldSpan? =
      d.fields.map (·.span) := by
    rw [List.filterMap_map, TypeDef.fields, List.map_filterMap]
    refine List.filterMap_congr fun m _ => ?_
    cases m <;> rfl
  rw [TypeDef.declarations, List.filterMap_append, hfields, TypeDef.fieldSpans]
  exact ((hparameters _).trans ((distinctBy_sublist ..).map _)).append (List.Sublist.refl _)

theorem filterMap_fieldSpan? (ds : List TypeDef) :
    (Node.ofDefinitions ds).filterMap Node.fieldSpan? =
      ds.flatMap fun d => d.declarations.filterMap Declaration.fieldSpan? := by
  rw [Node.ofDefinitions, List.filterMap_flatMap]
  refine flatMap_numbered fun p _ => ?_
  rw [List.filterMap_cons_none rfl, List.filterMap_map]
  rfl

variable {ds : List TypeDef}

theorem mem_numbered_of_node {d : TypeDef} {id : ClassId}
    (h : .type d id ∈ Node.ofDefinitions ds) : (d, id) ∈ numbered ds := by
  obtain ⟨p, hp, hnode⟩ := List.mem_flatMap.mp h
  rcases List.mem_cons.mp hnode with heq | hnode
  · obtain ⟨rfl, rfl⟩ := Node.type.inj heq
    exact hp
  · obtain ⟨x, -, heq⟩ := List.mem_map.mp hnode
    cases heq

theorem Journaled.nodup_fields (h : Journaled (Node.ofDefinitions ds) a log)
    (hspans : (ds.flatMap TypeDef.fieldSpans).Nodup) : (a.registry.fields.map (·.1)).Nodup := by
  rw [h.spans, List.nodup_reverse, filterMap_fieldSpan?]
  exact hspans.sublist (List.Sublist.flatMap_right _ fun d _ => sublist_declaredSpans d)

theorem memberOf?_of_enters {r : Registry} {x : Declaration} {id : MemberId}
    (hfields : (r.fields.map (·.1)).Nodup) (hmethods : (r.methods.map (·.1)).Nodup)
    (h : Enters r x id) : r.memberOf? x = some id := by
  cases id with
  | field id =>
    obtain ⟨span, hspan, hmem⟩ := h
    have hlookup := lookup_eq_some_of_mem hfields hmem
    cases x with
    | parameter p binding =>
      obtain rfl := Option.some.inj hspan
      rw [Registry.memberOf?, Registry.parameterField?, hlookup]
      rfl
    | member m =>
      cases m with
      | field f =>
        obtain rfl := Option.some.inj hspan
        rw [Registry.memberOf?, Registry.fieldOf, hlookup]
        rfl
      | method => cases hspan
  | method id =>
    obtain ⟨m, rfl, hmem⟩ := h
    rw [Registry.memberOf?, Registry.methodOf, lookup_eq_some_of_mem hmethods hmem]
    rfl

theorem Journaled.registered (h : Journaled (Node.ofDefinitions ds) a log) (hc : Collected ds a)
    (htypes : (ds.map (·.signature)).Nodup)
    (hmethods : ((ds.flatMap (·.methods)).map (·.signature)).Nodup)
    (hspans : (ds.flatMap TypeDef.fieldSpans).Nodup) :
    List.Forall₂ (Node.Registered a.registry) (Node.ofDefinitions ds) log := by
  have hkeys : (a.registry.methods.map (·.1)).Nodup := by
    rw [← List.nodup_reverse, ← List.map_reverse, hc.methods_keys]
    exact hmethods
  have hmem := (List.forall₂_and_left (p := (· ∈ Node.ofDefinitions ds)) _ _).mpr
    ⟨fun _ hnode => hnode, h.entered⟩
  -- A later entry for the same place would hide an earlier one; places differ, so none does.
  refine hmem.imp fun node e hboth => ?_
  obtain ⟨hnode, hentered⟩ := hboth
  cases node with
  | type d id =>
    exact ⟨hentered, hc.classOf htypes (mem_numbered_of_node hnode)⟩
  | member owner x =>
    obtain ⟨id, hmember, henters⟩ := hentered
    exact ⟨id, hmember, memberOf?_of_enters (h.nodup_fields hspans) hkeys henters⟩

/-! ### Parameters -/

theorem eq_of_mem_fieldSpans (hspans : (ds.flatMap TypeDef.fieldSpans).Nodup) {d d' : TypeDef}
    (hd : d ∈ ds) (hd' : d' ∈ ds) {span : Span} (hspan : span ∈ d.fieldSpans)
    (hspan' : span ∈ d'.fieldSpans) : d = d' := by
  by_contra hne
  have : Std.Symm (Function.onFun List.Disjoint TypeDef.fieldSpans) :=
    ⟨fun _ _ h _ hx hy => h hy hx⟩
  exact (List.nodup_flatMap.mp hspans).2.forall hd hd' hne hspan hspan'

theorem mem_parameters_declarations {d : TypeDef} {p : Parameter} {binding : Binding} :
    .parameter p binding ∈ d.declarations ↔
      p.binding = some binding ∧
        d.parameters.find? (fun q => q.name.text == p.name.text) = some p := by
  have hmember : Declaration.parameter p binding ∉ d.members.map Declaration.member := by simp
  rw [TypeDef.declarations, List.mem_append, or_iff_left hmember, List.mem_filterMap]
  constructor
  · rintro ⟨q, hq, hbinding⟩
    obtain ⟨b, hb, heq⟩ := Option.map_eq_some_iff.mp hbinding
    obtain ⟨rfl, rfl⟩ := Declaration.parameter.inj heq
    exact ⟨hb, (mem_distinctBy.mp hq).2⟩
  · rintro ⟨hbinding, hfirst⟩
    refine ⟨p, mem_distinctBy.mpr ⟨List.not_mem_nil, hfirst⟩, ?_⟩
    rw [hbinding]
    rfl

theorem eq_parameter_of_fieldSpan? {d : TypeDef} (hspans : d.fieldSpans.Nodup) {p : Parameter}
    (hp : p ∈ d.parameters) {x : Declaration} (hx : x ∈ d.declarations)
    (hspan : x.fieldSpan? = some p.span) : ∃ binding, x = .parameter p binding := by
  rw [TypeDef.fieldSpans, List.nodup_append] at hspans
  cases x with
  | parameter q binding =>
    have hq : q ∈ d.parameters :=
      List.mem_of_find?_eq_some (mem_parameters_declarations.mp hx).2
    refine ⟨binding, ?_⟩
    rw [List.inj_on_of_nodup_map hspans.1 hq hp (Option.some.inj hspan)]
  | member m =>
    have hm : m ∈ d.members := by simpa [TypeDef.declarations] using hx
    cases m with
    | method => cases hspan
    | field f =>
      have hf : f ∈ d.fields := List.mem_filterMap.mpr ⟨_, hm, rfl⟩
      exact absurd (Option.some.inj hspan).symm
        (hspans.2.2 _ (List.mem_map_of_mem hp) _ (List.mem_map_of_mem hf))

theorem Journaled.parameterField?_isSome (h : Journaled (Node.ofDefinitions ds) a log)
    (hspans : (ds.flatMap TypeDef.fieldSpans).Nodup) {d : TypeDef} (hd : d ∈ ds) {p : Parameter}
    (hp : p ∈ d.parameters) :
    (a.registry.parameterField? p).isSome ↔ p.binding.isSome ∧
      d.parameters.find? (fun q => q.name.text == p.name.text) = some p := by
  have hkeys : (a.registry.parameterField? p).isSome ↔
      ∃ d' ∈ ds, ∃ x ∈ d'.declarations, x.fieldSpan? = some p.span := by
    have hmem : (a.registry.parameterField? p).isSome ↔ p.span ∈ a.registry.fields.map (·.1) := by
      simp only [Registry.parameterField?, List.lookup_isSome_iff, beq_iff_eq, List.mem_map,
        eq_comm (a := p.span)]
    rw [hmem, h.spans, List.mem_reverse, filterMap_fieldSpan?]
    simp only [List.mem_flatMap, List.mem_filterMap]
  rw [hkeys]
  constructor
  · rintro ⟨d', hd', x, hx, hspan⟩
    -- Fields and parameters share their entries: it must be shown that `x` is `p`, and not another
    -- declaration that stands at the same place.
    have hspan' : p.span ∈ d'.fieldSpans :=
      (sublist_declaredSpans d').subset (List.mem_filterMap.mpr ⟨x, hx, hspan⟩)
    obtain rfl := eq_of_mem_fieldSpans hspans hd hd'
      (List.mem_append_left _ (List.mem_map_of_mem hp)) hspan'
    obtain ⟨binding, rfl⟩ :=
      eq_parameter_of_fieldSpan? ((List.nodup_flatMap.mp hspans).1 d hd) hp hx hspan
    obtain ⟨hbinding, hfirst⟩ := mem_parameters_declarations.mp hx
    exact ⟨by rw [hbinding]; rfl, hfirst⟩
  · rintro ⟨hbinding, hfirst⟩
    obtain ⟨binding, hbinding⟩ := Option.isSome_iff_exists.mp hbinding
    exact ⟨d, hd, _, mem_parameters_declarations.mpr ⟨hbinding, hfirst⟩, rfl⟩

/-! ### Identifiers -/

theorem Collected.nodup_classOf (hc : Collected ds a) (htypes : (ds.map (·.signature)).Nodup) :
    (ds.map a.registry.classOf).Nodup := by
  have hids : ds.map a.registry.classOf = (numbered ds).map fun p => .ok p.2 := by
    nth_rewrite 1 [← map_fst_numbered ds]
    rw [List.map_map]
    exact List.map_congr_left fun p hp => hc.classOf htypes hp
  have hnodup := (nodup_numbered ds).map (f := fun id => (.ok id : Except Unanalyzed ClassId))
    fun _ _ => Except.ok.inj
  rw [hids]
  rwa [List.map_map] at hnodup

theorem members_of_registered {r : Registry} (h : List.Forall₂ (Node.Registered r) ns log) :
    List.Forall₂ (fun q p => p.1 = q.2.info q.1 ∧ r.memberOf? q.2 = some p.2)
      (ns.filterMap Node.member?) log.members := by
  refine List.rel_filterMap (fun node e hnode => ?_) h
  cases node with
  | type d id =>
    obtain ⟨⟨reports, rfl⟩, -⟩ := hnode
    exact .none
  | member owner x =>
    obtain ⟨id, hmember, hid⟩ := hnode
    rw [hmember]
    exact .some ⟨rfl, hid⟩

theorem filterMap_member? (ds : List TypeDef) : (Node.ofDefinitions ds).filterMap Node.member? =
    (numbered ds).flatMap fun p => p.1.declarations.map (p.2, ·) := by
  rw [Node.ofDefinitions, List.filterMap_flatMap]
  refine List.flatMap_congr fun p _ => ?_
  rw [List.filterMap_cons_none rfl, List.filterMap_map, ← List.filterMap_eq_map]
  rfl

theorem nodup_memberOf? {t : SymbolTable} (h : List.Forall₂ (Node.Registered a.registry)
    (Node.ofDefinitions ds) log) (hrun : Run log t) :
    ((ds.flatMap (·.declarations)).map a.registry.memberOf?).Nodup := by
  have hdeclarations : ((Node.ofDefinitions ds).filterMap Node.member?).map
      (fun q => a.registry.memberOf? q.2) =
        (ds.flatMap (·.declarations)).map a.registry.memberOf? := by
    rw [filterMap_member?, List.map_flatMap, List.map_flatMap]
    refine flatMap_numbered fun p _ => ?_
    rw [List.map_map]
    rfl
  have hids : ((Node.ofDefinitions ds).filterMap Node.member?).map
      (fun q => a.registry.memberOf? q.2) = log.members.map fun p => some p.2 := by
    rw [← List.forall₂_eq_eq_eq, List.forall₂_map_left_iff, List.forall₂_map_right_iff]
    exact (members_of_registered h).imp fun _ _ hq => hq.2
  rw [← hdeclarations, hids]
  have hnodup := hrun.follows.nodup.map fun _ _ => Option.some.inj
  rwa [List.map_map] at hnodup

theorem described_of_registered {t : SymbolTable} (hrun : Run log t)
    (h : List.Forall₂ (Node.Registered a.registry) ns log)
    (hclasses : ∀ d id, .type d id ∈ ns → (a.symbols.classInfo id).toClassDecl = d.decl)
    (hmembers : a.symbols.memberInfo = t.memberInfo) : ∀ node ∈ ns, node.Described a := by
  intro node hnode
  obtain ⟨e, he, hregistered⟩ := exists_mem_of_forall₂ (List.Forall₂.flip h) hnode
  cases node with
  | type d id => exact ⟨hregistered.2, hclasses d id hnode⟩
  | member owner x =>
    obtain ⟨id, hmember, hid⟩ := hregistered
    refine ⟨id, hid, ?_⟩
    rw [hmembers]
    exact (hrun.follows.stored (x.info owner, id) (List.mem_filterMap.mpr ⟨e, he, hmember⟩)).2

/-- The registry of an analysis is that of the definitions. -/
structure Faithful (ds : List TypeDef) (a : Analysis) : Prop where
  /-- Each node was declared by one call, in the order in which the nodes are written, and has the
  identifier that this call returned. -/
  calls : ∃ log, Run log a.symbols ∧
    List.Forall₂ (Node.Registered a.registry) (Node.ofDefinitions ds) log
  /-- A class parameter is a field if it has a binding and is the first one of its name. -/
  parameters : ∀ d ∈ ds, ∀ p ∈ d.parameters, (a.registry.parameterField? p).isSome ↔
    p.binding.isSome ∧ d.parameters.find? (fun q => q.name.text == p.name.text) = some p
  /-- No two types have the same identifier. -/
  types : (ds.map a.registry.classOf).Nodup
  /-- No two members have the same identifier. -/
  members : ((ds.flatMap (·.declarations)).map a.registry.memberOf?).Nodup
  /-- Under the identifier of a node its own description is found. -/
  described : ∀ node ∈ Node.ofDefinitions ds, node.Described a

theorem Journaled.faithful (h : Journaled (Node.ofDefinitions ds) a log) (hc : Collected ds a)
    (htypes : (ds.map (·.signature)).Nodup)
    (hmethods : ((ds.flatMap (·.methods)).map (·.signature)).Nodup)
    (hspans : (ds.flatMap TypeDef.fieldSpans).Nodup) : Faithful ds a := by
  have hregistered := h.registered hc htypes hmethods hspans
  exact {
    calls := ⟨log, h.run, hregistered⟩
    parameters := fun d hd p hp => h.parameterField?_isSome hspans hd hp
    types := hc.nodup_classOf htypes
    members := nodup_memberOf? hregistered h.run
    described := described_of_registered h.run hregistered
      (fun d id hnode => hc.decl _ (mem_numbered_of_node hnode)) rfl }

end Analysis

/-! ### Members of types without clashes -/

def TypeDef.ownMembers (d : TypeDef) : List Declaration :=
  d.parameters.filterMap (fun p => p.binding.map (.parameter p)) ++ d.members.map .member

theorem TypeDef.declarations_eq_ownMembers {d : TypeDef}
    (h : (d.parameters.map fun p => p.name.text).Nodup) : d.declarations = d.ownMembers := by
  rw [declarations, ownMembers, distinctBy_eq_self h (by simp)]

theorem TypeDef.slots_ownMembers (d : TypeDef) (owner : ClassId) :
    (d.ownMembers.map (·.info owner)).map MemberInfo.slot = d.slots := by
  rw [ownMembers, slots, List.map_map, List.map_append, List.map_map, List.map_filterMap]
  congr 1
  · refine List.filterMap_congr fun p _ => ?_
    rw [Parameter.slot?, Option.map_map]
    rfl
  · refine List.map_congr_left fun m _ => ?_
    cases m with
    | field => rfl
    | method m => exact congrArg Slot.method (m.info_signature owner)

theorem flatMap_of_nodup_keys {α β κ : Type} [DecidableEq κ] {key : α → κ} {f : α → List β}
    {l : List α} (hl : (l.map key).Nodup) {a : α} (ha : a ∈ l) :
    (l.flatMap fun b => if key b = key a then f b else []) = f a := by
  induction l with
  | nil => cases ha
  | cons b l ih =>
    rw [List.map_cons, List.nodup_cons] at hl
    rw [List.flatMap_cons]
    rcases List.mem_cons.mp ha with rfl | ha
    · have hrest : (l.flatMap fun b => if key b = key a then f b else []) = [] := by
        refine List.flatMap_eq_nil_iff.mpr fun b hb => if_neg fun heq => hl.1 ?_
        exact heq ▸ List.mem_map_of_mem hb
      rw [if_pos rfl, hrest, List.append_nil]
    · have hne : key b ≠ key a := fun heq => hl.1 (heq ▸ List.mem_map_of_mem ha)
      rw [if_neg hne, List.nil_append, ih hl.2 ha]

namespace Analysis

variable {ds : List TypeDef} {a : Analysis} {log : History}

theorem filter_members {p : TypeDef × ClassId} (hp : p ∈ numbered ds) :
    ((Node.ofDefinitions ds).filterMap Node.member?).filter (fun q => q.1 = p.2) =
      p.1.declarations.map (p.2, ·) := by
  have hsingle := flatMap_of_nodup_keys (f := fun q => q.1.declarations.map (q.2, ·))
    (nodup_numbered ds) hp
  rw [filterMap_member?, List.filter_flatMap, ← hsingle]
  refine List.flatMap_congr fun q _ => ?_
  by_cases hq : q.2 = p.2 <;> simp [List.filter_map, Function.comp_def, hq]

theorem members_of_wellDeclared
    (h : List.Forall₂ (Node.Registered a.registry) (Node.ofDefinitions ds) log)
    (hrun : Run log a.symbols) {p : TypeDef × ClassId} (hp : p ∈ numbered ds)
    (hd : p.1.WellDeclared) :
    (a.symbols.classInfo p.2).members.map some = p.1.ownMembers.map a.registry.memberOf? ∧
      a.symbols.memberInfos p.2 = p.1.ownMembers.map (·.info p.2) := by
  have hdeclared : List.Forall₂ (fun x q => q.1 = x.info p.2 ∧ a.registry.memberOf? x = some q.2)
      p.1.ownMembers (log.members.filter fun q => q.1.owner = p.2) := by
    have hall := List.rel_filter (p := fun q => q.1 = p.2) (q := fun q => q.1.owner = p.2)
      (fun q q' hq => by simp [hq.1, Declaration.owner_info]) (members_of_registered h)
    rwa [filter_members hp, TypeDef.declarations_eq_ownMembers hd.parameters,
      List.forall₂_map_left_iff] at hall
  have hinfos : p.1.ownMembers.map (·.info p.2) =
      (log.members.filter fun q => q.1.owner = p.2).map (·.1) := by
    rw [← List.forall₂_eq_eq_eq, List.forall₂_map_left_iff, List.forall₂_map_right_iff]
    exact hdeclared.imp fun _ _ hx => hx.1.symm
  have hids : p.1.ownMembers.map a.registry.memberOf? =
      (log.members.filter fun q => q.1.owner = p.2).map fun q => some q.2 := by
    rw [← List.forall₂_eq_eq_eq, List.forall₂_map_left_iff, List.forall₂_map_right_iff]
    exact hdeclared.imp fun _ _ hx => hx.2
  -- Nothing clashes, so nothing that was declared was dropped.
  have hkept : log.kept p.2 = log.members.filter fun q => q.1.owner = p.2 := by
    refine History.kept_eq_filter ?_
    have hslots := hd.slots
    rw [← TypeDef.slots_ownMembers p.1 p.2, hinfos, List.map_map] at hslots
    exact List.pairwise_map.mp hslots
  rw [hrun.follows.members_eq, hrun.follows.memberInfos, hkept, hinfos, hids, List.map_map]
  exact ⟨rfl, rfl⟩

end Analysis

/-! ### Parsed units -/

open Analysis in
/-- Collecting the declarations of parsed units yields a registry of their definitions. All analyses
keep it and find under the identifiers in it what the definitions declare. -/
theorem collectDeclarations_registers {texts : List (SourceFile × String)} {units : List Program}
    (hfiles : (texts.map (·.1)).Nodup) (hparsed : parseAll texts = .ok units) :
    let ds := units.flatMap (·.definitions)
    let a := Analysis.initial.collectDeclarations units
    a.Faithful ds ∧ ∃ b, analyze units = .ok b ∧ b.registry = a.registry ∧
      ∀ node ∈ Node.ofDefinitions ds, node.Described b := by
  intro ds a
  have htypes := nodup_signatures hfiles hparsed
  have hmethods := nodup_methodSignatures hfiles hparsed
  have hspans := nodup_fieldSpans hfiles hparsed
  have hc := Analysis.collected units
  obtain ⟨log, h⟩ := exists_journal units
  obtain ⟨cycles, reports, hu⟩ := untangled_resolvedUnits htypes
  obtain ⟨b, hb, hsymbols, -⟩ := analyze_reports htypes hmethods
  have hregistry := registry_of_analyze hb
  have hregistered := h.registered hc htypes hmethods hspans
  refine ⟨h.faithful hc htypes hmethods hspans, b, hb, hregistry, ?_⟩
  refine described_of_registered h.run (hregistry ▸ hregistered) (fun d id hnode => ?_) ?_
  · rw [hsymbols]
    exact hc.decl_final hu _ (mem_numbered_of_node hnode)
  · rw [hsymbols]
    exact memberInfo_final hu

open Analysis in
/-- Types of one name, parameters of one name with and without a binding, and members that clash
with them and with each other, in two texts. -/
theorem collectDeclarations_registers_clashes :
    let texts := [(SourceFile.prelude,
        "class A(val x: Int, y: Int) \x7b val x: Int = 1; def f: Int = 1 \x7d"),
      (SourceFile.user,
        "class A(x: Int, val x: Int, var y: Int, var y: Int) \x7b\n" ++
        "  val y: Int = 1; val y: Int = 1; def y: Int = 2; def f: Int = 1; def f: Int = 1\n" ++
        "\x7d\nobject A extends A; trait Any")]
    (texts.map (·.1)).Nodup ∧ ∃ units, parseAll texts = .ok units ∧
      let ds := units.flatMap (·.definitions)
      let a := Analysis.initial.collectDeclarations units
      ((Node.ofDefinitions ds).length, ds.flatMap (·.parameters.map a.registry.parameterField?)) =
          (13, [some ⟨0⟩, none, none, none, some ⟨2⟩, none]) ∧
        a.Faithful ds ∧ ∃ b, analyze units = .ok b ∧ b.registry = a.registry ∧
          ∀ node ∈ Node.ofDefinitions ds, node.Described b := by
  intro texts
  have hfiles : (texts.map (·.1)).Nodup := by decide
  have hparsed : ((parseAll texts).toOption.map fun units =>
      let ds := units.flatMap (·.definitions)
      let a := Analysis.initial.collectDeclarations units
      ((Node.ofDefinitions ds).length,
        ds.flatMap (·.parameters.map a.registry.parameterField?))) =
          some (13, [some ⟨0⟩, none, none, none, some ⟨2⟩, none]) := by
    decide +kernel
  obtain ⟨units, hunits, hfields⟩ := exists_ok_of_toOption hparsed
  exact ⟨hfiles, units, hunits, hfields, collectDeclarations_registers hfiles hunits⟩

end Mixin
