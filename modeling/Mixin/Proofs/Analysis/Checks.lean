import Mixin.Analysis.Checks
import Mixin.Proofs.Analysis.Declarations
import Mixin.Proofs.Symbol.Hierarchy

/-!
# What the checks find

The checks look at types, methods and fields only, and each of these is visited once
(`exists_visitsOfAll`). So the check of the structure finds every field without a value, and the
check of the obligations asks each type and each method of a program once.
-/

namespace Mixin

def Visit.isDefinition : Visit → Bool
  | type .. => true
  | method .. => true
  | field .. => true
  | _ => false

/-! ### Expressions -/

-- No definition stands in an expression.
mutual

theorem Expr.visits_plain (e : Expr) : ∀ v ∈ e.visits, v.isDefinition = false := by
  intro v hv
  rw [Expr.visits.eq_def, List.mem_cons] at hv
  rcases hv with rfl | hv
  · rfl
  · match e with
    | .select receiver _ _ => exact receiver.visits_plain v hv
    | .call callee arguments _ =>
      rcases List.mem_append.mp hv with hv | hv
      · exact callee.visits_plain v hv
      · exact exprListVisits_plain arguments v hv
    | .create _ arguments _ => exact exprListVisits_plain arguments v hv
    | .unary _ operand _ => exact operand.visits_plain v hv
    | .binary _ lhs rhs _ | .assign lhs rhs _ | .ifThen lhs rhs _ | .loop lhs rhs _ =>
      rcases List.mem_append.mp hv with hv | hv
      · exact lhs.visits_plain v hv
      · exact rhs.visits_plain v hv
    | .ifElse condition consequent alternative _ =>
      simp only [List.mem_append, or_assoc] at hv
      rcases hv with hv | hv | hv
      · exact condition.visits_plain v hv
      · exact consequent.visits_plain v hv
      · exact alternative.visits_plain v hv
    | .closure parameters body _ =>
      rcases List.mem_append.mp hv with hv | hv
      · obtain ⟨p, -, rfl⟩ := List.mem_map.mp hv
        rfl
      · exact body.visits_plain v hv
    | .block statements _ =>
      rcases List.mem_cons.mp hv with rfl | hv
      · rfl
      · exact stmtListVisits_plain statements v hv

theorem Stmt.visits_plain (s : Stmt) : ∀ v ∈ s.visits, v.isDefinition = false := by
  intro v hv
  match s with
  | .define _ name _ initializer _ =>
    rw [Stmt.visits, List.mem_cons] at hv
    rcases hv with rfl | hv
    · rfl
    · exact initializer.visits_plain v hv
  | .eval e => exact e.visits_plain v hv

theorem exprListVisits_plain (es : List Expr) :
    ∀ v ∈ exprListVisits es, v.isDefinition = false := by
  intro v hv
  match es with
  | [] => cases hv
  | e :: rest =>
    rw [exprListVisits, List.mem_append] at hv
    rcases hv with hv | hv
    · exact e.visits_plain v hv
    · exact exprListVisits_plain rest v hv

theorem stmtListVisits_plain (ss : List Stmt) :
    ∀ v ∈ stmtListVisits ss, v.isDefinition = false := by
  intro v hv
  match ss with
  | [] => cases hv
  | s :: rest =>
    rw [stmtListVisits, List.mem_append] at hv
    rcases hv with hv | hv
    · exact s.visits_plain v hv
    · exact stmtListVisits_plain rest v hv

end

/-! ### Definitions -/

def definitionVisits (vs : List Visit) : List Visit := vs.filter (·.isDefinition)

theorem definitionVisits_append (vs ws : List Visit) :
    definitionVisits (vs ++ ws) = definitionVisits vs ++ definitionVisits ws :=
  List.filter_append ..

theorem definitionVisits_eq_nil {vs : List Visit} (h : ∀ v ∈ vs, v.isDefinition = false) :
    definitionVisits vs = [] :=
  List.filter_eq_nil_iff.mpr fun v hv => by simp [h v hv]

theorem Parameter.visits_plain (p : Parameter) (owner : ParameterOwner) :
    ∀ v ∈ p.visits owner, v.isDefinition = false := by
  intro v hv
  rcases List.mem_cons.mp hv with rfl | hv
  · rfl
  · cases hdefault : p.default with
    | none => simp [hdefault] at hv
    | some e =>
      rw [hdefault] at hv
      exact e.visits_plain v hv

theorem Initializer.visits_plain (i : Initializer) : ∀ v ∈ i.visits, v.isDefinition = false := by
  intro v hv
  cases i with
  | given value => exact value.visits_plain v hv
  | omitted span =>
    rw [List.mem_singleton.mp hv]
    rfl

def Member.Known (r : Registry) : Member → Prop
  | field f => ∃ id, r.fieldOf f = .ok id
  | method m => ∃ id, r.methodOf m = .ok id

def Member.entry (r : Registry) (owner : Owner) : Member → Visit
  | field f => .field f ((r.fieldOf f).toOption.getD default) owner
  | method m => .method m ((r.methodOf m).toOption.getD default) owner

def TypeDef.entries (r : Registry) (d : TypeDef) : List Visit :=
  let id := (r.classOf d).toOption.getD default
  .type d id :: d.members.map (Member.entry r ⟨id, d.kind⟩)

theorem Member.exists_visits {r : Registry} (owner : Owner) {m : Member} (h : m.Known r) :
    ∃ vs, m.visits r owner = .ok vs ∧ definitionVisits vs = [m.entry r owner] := by
  cases m with
  | field f =>
    obtain ⟨id, hid⟩ := h
    refine ⟨.field f id owner :: f.initializer.visits, ?_, ?_⟩
    · rw [Member.visits, hid]
      rfl
    · rw [Member.entry, hid]
      exact congrArg _ (definitionVisits_eq_nil f.initializer.visits_plain)
  | method m =>
    obtain ⟨id, hid⟩ := h
    have hplain : ∀ v ∈ m.parameters.flatMap (·.visits (.method id)) ++
        (m.body.map Expr.visits).getD [], v.isDefinition = false := by
      intro v hv
      rcases List.mem_append.mp hv with hv | hv
      · obtain ⟨p, -, hv⟩ := List.mem_flatMap.mp hv
        exact p.visits_plain _ v hv
      · cases hbody : m.body with
        | none => simp [hbody] at hv
        | some e =>
          rw [hbody] at hv
          exact e.visits_plain v hv
    refine ⟨.method m id owner :: (m.parameters.flatMap (·.visits (.method id)) ++
        (m.body.map Expr.visits).getD []), ?_, ?_⟩
    · rw [Member.visits, hid]
      rfl
    · rw [Member.entry, hid]
      exact congrArg _ (definitionVisits_eq_nil hplain)

theorem exists_mapM_visits {α : Type} {f : α → Except Unanalyzed (List Visit)}
    {entries : α → List Visit} {l : List α}
    (h : ∀ a ∈ l, ∃ vs, f a = .ok vs ∧ definitionVisits vs = entries a) :
    ∃ vss, l.mapM f = .ok vss ∧ definitionVisits vss.flatten = l.flatMap entries := by
  induction l with
  | nil => exact ⟨[], rfl, rfl⟩
  | cons a l ih =>
    obtain ⟨vs, hvs, hentries⟩ := h a (List.mem_cons_self ..)
    obtain ⟨vss, hvss, hrest⟩ := ih fun b hb => h b (List.mem_cons_of_mem _ hb)
    refine ⟨vs :: vss, ?_, ?_⟩
    · rw [List.mapM_cons, hvs, hvss]
      rfl
    · rw [List.flatten_cons, definitionVisits_append, hentries, hrest, List.flatMap_cons]

theorem TypeDef.exists_visits {r : Registry} {d : TypeDef} {id : ClassId}
    (hid : r.classOf d = .ok id) (hmembers : ∀ m ∈ d.members, m.Known r) :
    ∃ vs, d.visits r = .ok vs ∧ definitionVisits vs = d.entries r := by
  obtain ⟨vss, hvss, hentries⟩ := exists_mapM_visits (l := d.members) fun m hm =>
    Member.exists_visits ⟨id, d.kind⟩ (hmembers m hm)
  have hparameters : ∀ v ∈ d.parameters.flatMap fun p =>
      p.visits (.type ⟨id, d.kind⟩ (r.parameterField? p)), v.isDefinition = false := by
    intro v hv
    obtain ⟨p, -, hv⟩ := List.mem_flatMap.mp hv
    exact p.visits_plain _ v hv
  have harguments : ∀ v ∈ d.parents.flatMap fun p => exprListVisits p.arguments,
      v.isDefinition = false := by
    intro v hv
    obtain ⟨p, -, hv⟩ := List.mem_flatMap.mp hv
    exact exprListVisits_plain p.arguments v hv
  refine ⟨.type d id ::
    (d.parameters.flatMap (fun p => p.visits (.type ⟨id, d.kind⟩ (r.parameterField? p))) ++
      d.parents.flatMap (fun p => exprListVisits p.arguments) ++ vss.flatten), ?_, ?_⟩
  · simp only [TypeDef.visits, hid, hvss, bind, Except.bind]
    rfl
  · have hrest : definitionVisits
        (d.parameters.flatMap (fun p => p.visits (.type ⟨id, d.kind⟩ (r.parameterField? p))) ++
          d.parents.flatMap (fun p => exprListVisits p.arguments) ++ vss.flatten) =
        d.members.map (Member.entry r ⟨id, d.kind⟩) := by
      rw [definitionVisits_append, definitionVisits_append, definitionVisits_eq_nil hparameters,
        definitionVisits_eq_nil harguments, hentries]
      exact List.flatMap_pure_eq_map ..
    rw [TypeDef.entries, hid]
    exact congrArg _ hrest

theorem Program.exists_visits {r : Registry} {p : Program}
    (h : ∀ d ∈ p.definitions, (∃ id, r.classOf d = .ok id) ∧ ∀ m ∈ d.members, m.Known r) :
    ∃ vs, p.visits r = .ok vs ∧
      definitionVisits vs = p.definitions.flatMap (TypeDef.entries r) := by
  have hdefinitions : ∀ d ∈ p.definitions,
      ∃ vs, TypeDef.visits r d = .ok vs ∧ definitionVisits vs = TypeDef.entries r d := by
    intro d hd
    obtain ⟨⟨id, hid⟩, hmembers⟩ := h d hd
    exact TypeDef.exists_visits hid hmembers
  obtain ⟨vss, hvss, hentries⟩ := exists_mapM_visits hdefinitions
  refine ⟨vss.flatten, ?_, hentries⟩
  rw [Program.visits, hvss]
  rfl

theorem exists_visitsOfAll {r : Registry} {units : List Program}
    (h : ∀ d ∈ units.flatMap (·.definitions),
      (∃ id, r.classOf d = .ok id) ∧ ∀ m ∈ d.members, m.Known r) :
    ∃ vs, visitsOfAll r units = .ok vs ∧
      definitionVisits vs = (units.flatMap (·.definitions)).flatMap (TypeDef.entries r) := by
  have hprogram : ∀ p ∈ units, ∃ vs, Program.visits r p = .ok vs ∧
      definitionVisits vs = p.definitions.flatMap (TypeDef.entries r) :=
    fun p hp => Program.exists_visits fun d hd => h d (List.mem_flatMap.mpr ⟨p, hp, hd⟩)
  obtain ⟨vss, hvss, hentries⟩ := exists_mapM_visits hprogram
  refine ⟨vss.flatten, ?_, ?_⟩
  · rw [visitsOfAll, hvss]
    rfl
  · rw [hentries, List.flatMap_assoc]

theorem forall_definitionVisits {P : Visit → Prop} (hplain : ∀ v, v.isDefinition = false → P v)
    {vs : List Visit} : (∀ v ∈ vs, P v) ↔ ∀ v ∈ definitionVisits vs, P v := by
  simp only [definitionVisits, List.mem_filter, and_imp]
  refine forall₂_congr fun v _ => ?_
  cases hv : v.isDefinition with
  | true => simp
  | false => simpa using hplain v hv

/-! ### Fields without a value -/

theorem Visit.bareFields_eq_nil_iff (owner : String) {vs : List Visit} :
    bareFields owner vs = [] ↔ ∀ v ∈ vs, v.bareField? = none := by
  induction vs generalizing owner with
  | nil => simp [bareFields]
  | cons v rest ih =>
    rw [bareFields, List.append_eq_nil_iff, ih, List.map_eq_nil_iff, Option.toList_eq_nil_iff,
      List.forall_mem_cons]

theorem Analysis.exists_checkStructure {a : Analysis} {units : List Program} {vs : List Visit}
    (hvisits : visitsOfAll a.registry units = .ok vs) :
    ∃ a', a.checkStructure units = .ok a' ∧ a'.symbols = a.symbols ∧ a'.registry = a.registry ∧
      (Harmless a'.diagnostics ↔ Harmless a.diagnostics ∧ ∀ v ∈ vs, v.bareField? = none) := by
  let found := Visit.bareFields "" vs
  refine ⟨(a.report (found.map fun p =>
      .missingInitializer p.1.binding p.1.name p.1.type p.2)).log
    (found.map fun p => .initializerMissing p.1.name.text p.2), ?_, rfl, rfl, ?_⟩
  · rw [checkStructure, hvisits]
  rw [← Visit.bareFields_eq_nil_iff "", log, report, harmless_append,
    harmless_map_iff fun _ => rfl]

theorem TypeDef.bareField?_entries {r : Registry} {d : TypeDef} :
    (∀ v ∈ d.entries r, v.bareField? = none) ↔ ∀ f ∈ d.fields, f.initializer.isGiven = true := by
  rw [TypeDef.entries, List.forall_mem_cons, List.forall_mem_map]
  constructor
  · rintro ⟨-, hall⟩ f hf
    obtain ⟨member, hmem, hfield⟩ := List.mem_filterMap.mp hf
    cases member with
    | field f' =>
      obtain rfl := Option.some.inj hfield
      simpa [Member.entry, Visit.bareField?] using hall _ hmem
    | method m => cases hfield
  · intro hall
    refine ⟨rfl, fun member hmem => ?_⟩
    cases member with
    | field f =>
      have hgiven := hall f (List.mem_filterMap.mpr ⟨_, hmem, rfl⟩)
      simp [Member.entry, Visit.bareField?, hgiven]
    | method m => rfl

theorem forall_bareField?_iff {r : Registry} {ds : List TypeDef} {vs : List Visit}
    (hentries : definitionVisits vs = ds.flatMap (TypeDef.entries r)) :
    (∀ v ∈ vs, v.bareField? = none) ↔
      ∀ d ∈ ds, ∀ f ∈ d.fields, f.initializer.isGiven = true := by
  have hplain : ∀ v : Visit, v.isDefinition = false → v.bareField? = none := by
    intro v hv
    cases v with
    | type | method | field => cases hv
    | _ => rfl
  rw [forall_definitionVisits hplain, hentries]
  simp only [List.mem_flatMap, forall_exists_index, and_imp]
  constructor
  · intro hall d hd
    exact TypeDef.bareField?_entries.mp fun v hv => hall v d hd hv
  · intro hall v d hd hv
    exact TypeDef.bareField?_entries.mpr (hall d hd) v hv

/-! ### Methods without a body -/

namespace Visit

variable {t : SymbolTable} {id : ClassId}

theorem outstanding_eq_nil_iff (hcomplete : (t.classInfo id).mayBeIncomplete = false)
    (hown : ∀ m ∈ t.chainInfos id, m.owner = id → m.isAbstract = false) :
    outstanding t id = [] ↔ t.Complete id := by
  rw [← SymbolTable.abstractMembers_eq_nil_iff, outstanding, hcomplete, if_neg Bool.false_ne_true,
    List.filter_eq_nil_iff, List.forall_mem_map]
  constructor
  · intro h
    refine List.eq_nil_iff_forall_not_mem.mpr fun m hm => ?_
    obtain ⟨hchain, habstract⟩ := SymbolTable.methodInfo_of_mem_abstractMembers hm
    -- A type is not asked for its own methods without a body; by `hown` it has none.
    have howner : (t.methodInfo m).owner = id := by simpa using h m hm
    rw [hown _ hchain howner] at habstract
    cases habstract
  · intro h m hm
    rw [h] at hm
    cases hm

theorem harmless_obligations_type {d : TypeDef} (hkind : d.kind ≠ .trait) :
    Harmless (obligations t (.type d id)) ↔ outstanding t id = [] := by
  have hobligations : obligations t (.type d id) =
      (outstanding t id).map fun m =>
        .unimplementedMember (t.classInfo id).sketch m.sketch (t.classInfo m.owner).name := by
    cases hk : d.kind with
    | trait => exact absurd hk hkind
    | _ => simp only [obligations, hk]
  rw [hobligations, harmless_map_iff fun _ => rfl]

theorem harmless_obligations_trait {d : TypeDef} (hkind : d.kind = .trait) :
    Harmless (obligations t (.type d id)) := by
  simp only [obligations, hkind]
  exact harmless_nil

theorem harmless_obligations_method {m : Method} {methodId : MethodId} {owner : Owner} :
    Harmless (obligations t (.method m methodId owner)) ↔
      ((t.methodInfo methodId).isAbstract = true →
        (t.classInfo (t.methodInfo methodId).owner).mayBeIncomplete = true) := by
  simp only [obligations]
  cases (t.methodInfo methodId).isAbstract with
  | false => simp
  | true =>
    cases (t.classInfo (t.methodInfo methodId).owner).mayBeIncomplete with
    | true => simp
    | false =>
      simp only [Bool.not_false, Bool.and_true, if_true, harmless_singleton, Bool.false_eq_true,
        imp_false, not_true_eq_false, iff_false]
      exact fun h => Bool.noConfusion h

end Visit

theorem Analysis.exists_checkObligations {a : Analysis} {units : List Program} {vs : List Visit}
    (hvisits : visitsOfAll a.registry units = .ok vs) :
    ∃ a', a.checkObligations units = .ok a' ∧ (Harmless a'.diagnostics ↔
      Harmless a.diagnostics ∧ ∀ v ∈ vs, Harmless (Visit.obligations a.symbols v)) := by
  refine ⟨(a.report (vs.flatMap (Visit.obligations a.symbols))).log
    (vs.flatMap (Visit.obligationEvents a.symbols)), by rw [checkObligations, hvisits], ?_⟩
  rw [log, report, harmless_append, harmless_flatMap]

end Mixin
