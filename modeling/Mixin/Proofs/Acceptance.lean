import Mixin.Proofs.Analysis.Checks
import Mixin.Proofs.Analysis.Resolution

/-!
# Which programs are compiled

The rules that make a program correct (`WellFormed`) speak of its definitions and their names only.
A program without syntax errors is compiled exactly if its definitions, together with those of the
prelude, follow them; what the analyses report is enough to tell (`harmless_analyze_iff`).
-/

namespace Mixin

open Relation

/-! ### The rules -/

/-- Among the definitions `ds`, `d` names `e` as a supertype. -/
def TypeDef.Inherits (ds : List TypeDef) (d e : TypeDef) : Prop :=
  d ∈ ds ∧ e ∈ ds ∧ e.name.text ∈ d.supertypeNames

/-- Whether a type may leave methods without a body. -/
def TypeDef.MayBeIncomplete (d : TypeDef) : Prop :=
  d.kind = .trait ∨ d.modifiers.contains .abstract = true

instance (d : TypeDef) : Decidable d.MayBeIncomplete := inferInstanceAs (Decidable (_ ∨ _))

/-- For each method without a body in `d` or its supertypes, one of these has a body for a method of
that name and with that number of parameters. -/
def TypeDef.Implements (ds : List TypeDef) (d : TypeDef) : Prop :=
  ∀ e, ReflTransGen (TypeDef.Inherits ds) d e → ∀ m ∈ e.methods, m.isAbstract = true →
    ∃ e', ReflTransGen (TypeDef.Inherits ds) d e' ∧ ∃ m' ∈ e'.methods,
      m'.isAbstract = false ∧ m'.name.text = m.name.text ∧ m'.arity = m.arity

/-- The definitions of a program follow all rules. -/
structure WellFormed (ds : List TypeDef) : Prop where
  /-- Types have different names, and none is named like the root. -/
  names : ("Any" :: ds.map fun d => d.name.text).Nodup
  /-- In each type the names of parameters and members do not clash. -/
  declared : ∀ d ∈ ds, d.WellDeclared
  /-- The parents of each type exist. -/
  parents : ∀ d ∈ ds, ∀ name ∈ d.parentNames, name = "Any" ∨ ∃ e ∈ ds, e.name.text = name
  /-- No type inherits from itself. -/
  acyclic : ∀ d ∈ ds, ¬ TransGen (TypeDef.Inherits ds) d d
  /-- Each field in a body has a value to start with. -/
  initialized : ∀ d ∈ ds, ∀ f ∈ d.fields, f.initializer.isGiven = true
  /-- A type that has to be complete has bodies for its own methods and for those it inherits. -/
  complete : ∀ d ∈ ds, ¬ d.MayBeIncomplete →
    (∀ m ∈ d.methods, m.isAbstract = false) ∧ d.Implements ds

namespace Analysis

/-! ### Definitions and their numbers -/

theorem mem_numbered_of_getElem? {ds : List TypeDef} {i : Nat} {d : TypeDef}
    (h : ds[i]? = some d) : (d, ⟨i + 1⟩) ∈ numbered ds := by
  refine List.mem_map.mpr ⟨(d, i + 1), ?_, rfl⟩
  rw [List.mem_zipIdx_iff_le_and_getElem?_sub]
  exact ⟨Nat.le_add_left .., by simpa using h⟩

theorem exists_numbered {ds : List TypeDef} {d : TypeDef} (h : d ∈ ds) :
    ∃ id, (d, id) ∈ numbered ds := by
  obtain ⟨i, hi⟩ := List.mem_iff_getElem?.mp h
  exact ⟨_, mem_numbered_of_getElem? hi⟩

theorem mem_of_numbered {ds : List TypeDef} {p : TypeDef × ClassId} (hp : p ∈ numbered ds) :
    p.1 ∈ ds :=
  List.mem_of_getElem? (numbered_index hp).2.2

theorem ne_root_of_numbered {ds : List TypeDef} {p : TypeDef × ClassId} (hp : p ∈ numbered ds) :
    p.2 ≠ .root := by
  intro heq
  have hpos := (numbered_index hp).1
  rw [heq] at hpos
  exact absurd hpos (Nat.lt_irrefl 0)

theorem cases_id {ds : List TypeDef} {t : SymbolTable} (hsize : t.classes.size = ds.length + 1)
    (c : ClassId) : c = .root ∨ (∃ p ∈ numbered ds, p.2 = c) ∨ c ∉ t.classIds := by
  obtain ⟨i⟩ := c
  cases i with
  | zero => exact Or.inl rfl
  | succ i =>
    refine Or.inr ?_
    by_cases hi : i < ds.length
    · exact Or.inl ⟨_, mem_numbered_of_getElem? (List.getElem?_eq_getElem hi), rfl⟩
    · refine Or.inr fun hmem => hi ?_
      rw [SymbolTable.mem_classIds, hsize] at hmem
      exact Nat.lt_of_succ_lt_succ hmem

theorem flatMap_numbered {β : Type} {f : TypeDef → List β} {g : TypeDef × ClassId → List β}
    {ds : List TypeDef} (h : ∀ p ∈ numbered ds, g p = f p.1) :
    (numbered ds).flatMap g = ds.flatMap f := by
  conv_rhs => rw [← map_fst_numbered ds]
  rw [List.flatMap_map]
  exact List.flatMap_congr h

namespace Collected

variable {ds : List TypeDef} {a : Analysis} (h : Collected ds a)
  (hnames : ("Any" :: ds.map fun d => d.name.text).Nodup)
include h hnames

theorem lookup?_name {p : TypeDef × ClassId} (hp : p ∈ numbered ds) :
    a.symbols.lookup? p.1.name.text = some p.2 := by
  obtain ⟨hpos, -, hget⟩ := numbered_index hp
  rw [← h.names] at hnames
  refine SymbolTable.lookup?_eq_some_of_nodup hnames ?_
  obtain ⟨i, hi⟩ : ∃ i, p.2.index = i + 1 := ⟨p.2.index - 1, by omega⟩
  rw [hi, Nat.add_sub_cancel] at hget
  rw [h.names, hi, List.getElem?_cons_succ, List.getElem?_map, hget]
  rfl

omit hnames in
theorem exists_of_lookup? {name : String} {c : ClassId} (hc : a.symbols.lookup? name = some c) :
    c = .root ∨ ∃ p ∈ numbered ds, p.2 = c ∧ p.1.name.text = name := by
  have hget := SymbolTable.names_getElem?_of_lookup? hc
  rw [h.names] at hget
  obtain ⟨i⟩ := c
  cases i with
  | zero => exact Or.inl rfl
  | succ i =>
    rw [List.getElem?_cons_succ, List.getElem?_map, Option.map_eq_some_iff] at hget
    obtain ⟨d, hd, hname⟩ := hget
    exact Or.inr ⟨_, mem_numbered_of_getElem? hd, rfl, hname⟩

theorem numbered_inj {p q : TypeDef × ClassId} (hp : p ∈ numbered ds) (hq : q ∈ numbered ds)
    (heq : p.2 = q.2 ∨ p.1 = q.1) : p = q := by
  rcases heq with heq | heq
  · exact List.inj_on_of_nodup_map (nodup_numbered ds) hp hq heq
  · have hid := h.lookup?_name hnames hp
    rw [heq, h.lookup?_name hnames hq] at hid
    exact Prod.ext heq (Option.some.inj hid).symm

theorem inherits_numbered {p q : TypeDef × ClassId} (hp : p ∈ numbered ds) (hq : q ∈ numbered ds) :
    (a.resolved ds).symbols.Inherits p.2 q.2 ↔ TypeDef.Inherits ds p.1 q.1 := by
  rw [h.inherits_resolved]
  constructor
  · rintro ⟨p', hp', heq, name, hname, hlookup⟩
    obtain rfl := h.numbered_inj hnames hp' hp (Or.inl heq)
    rcases h.exists_of_lookup? hlookup with hroot | ⟨q', hq', heq', hname'⟩
    · exact absurd hroot (ne_root_of_numbered hq)
    · obtain rfl := h.numbered_inj hnames hq' hq (Or.inl heq')
      exact ⟨mem_of_numbered hp, mem_of_numbered hq, hname'.symm ▸ hname⟩
  · rintro ⟨-, -, hname⟩
    exact ⟨p, hp, rfl, _, hname, h.lookup?_name hnames hq⟩

omit hnames in
theorem exists_numbered_of_inherits {heir parent : ClassId}
    (hinherits : (a.resolved ds).symbols.Inherits heir parent) :
    (∃ p ∈ numbered ds, p.2 = heir) ∧ (parent ≠ .root → ∃ q ∈ numbered ds, q.2 = parent) := by
  obtain ⟨p, hp, heq, name, -, hlookup⟩ := h.inherits_resolved.mp hinherits
  refine ⟨⟨p, hp, heq⟩, fun hne => ?_⟩
  rcases h.exists_of_lookup? hlookup with hroot | ⟨q, hq, hq2, -⟩
  · exact absurd hroot hne
  · exact ⟨q, hq, hq2⟩

theorem reaches_iff {p : TypeDef × ClassId} (hp : p ∈ numbered ds) {c : ClassId} :
    ReflTransGen (fun x y => (a.resolved ds).symbols.Inherits x y ∧ y ≠ .root) p.2 c ↔
      ∃ q ∈ numbered ds, q.2 = c ∧ ReflTransGen (TypeDef.Inherits ds) p.1 q.1 := by
  constructor
  · intro hpath
    induction hpath with
    | refl => exact ⟨p, hp, rfl, .refl⟩
    | tail _ hstep ih =>
      obtain ⟨q, hq, rfl, hpath⟩ := ih
      obtain ⟨q', hq', rfl⟩ := (h.exists_numbered_of_inherits hstep.1).2 hstep.2
      exact ⟨q', hq', rfl, hpath.tail ((h.inherits_numbered hnames hq hq').mp hstep.1)⟩
  · rintro ⟨q, hq, rfl, hpath⟩
    -- The induction is on the walk by name, whose end carries whatever number it has.
    obtain ⟨e, id⟩ := q
    change ReflTransGen _ p.1 e at hpath
    induction hpath generalizing id with
    | refl =>
      rw [← h.numbered_inj hnames hp hq (Or.inr rfl)]
    | tail _ hstep ih =>
      obtain ⟨id', hid'⟩ := exists_numbered hstep.1
      refine (ih id' hid').tail ⟨?_, ne_root_of_numbered hq⟩
      exact (h.inherits_numbered hnames hid' hq).mpr hstep

omit hnames in
theorem transGen_ne_root {c : ClassId} (hc : c ≠ .root) {b : ClassId}
    (hpath : TransGen (a.resolved ds).symbols.Inherits b c) :
    TransGen (fun x y => (a.resolved ds).symbols.Inherits x y ∧ y ≠ .root) b c := by
  induction hpath using TransGen.head_induction_on with
  | single hstep => exact .single ⟨hstep, hc⟩
  | head hstep hrest ih =>
    refine .head ⟨hstep, ?_⟩ ih
    -- The walk goes on from here, and the root inherits from nothing.
    obtain ⟨y, hy, -⟩ := TransGen.head'_iff.mp hrest
    obtain ⟨⟨q, hq, rfl⟩, -⟩ := h.exists_numbered_of_inherits hy
    exact ne_root_of_numbered hq

theorem exists_circle_iff :
    (∃ c, TransGen (a.resolved ds).symbols.Inherits c c) ↔
      ∃ d ∈ ds, TransGen (TypeDef.Inherits ds) d d := by
  constructor
  · rintro ⟨c, hcircle⟩
    obtain ⟨y, hy, -⟩ := TransGen.head'_iff.mp hcircle
    obtain ⟨⟨p, hp, rfl⟩, -⟩ := h.exists_numbered_of_inherits hy
    obtain ⟨b, hpath, hlast⟩ := TransGen.tail'_iff.mp
      (h.transGen_ne_root (ne_root_of_numbered hp) hcircle)
    obtain ⟨q, hq, rfl, hnamed⟩ := (h.reaches_iff hnames hp).mp hpath
    exact ⟨p.1, mem_of_numbered hp,
      .tail' hnamed ((h.inherits_numbered hnames hq hp).mp hlast.1)⟩
  · rintro ⟨d, hd, hcircle⟩
    obtain ⟨id, hid⟩ := exists_numbered hd
    obtain ⟨e, hpath, hlast⟩ := TransGen.tail'_iff.mp hcircle
    obtain ⟨id', hid'⟩ := exists_numbered hlast.1
    have hreach := (h.reaches_iff hnames hid).mpr ⟨_, hid', rfl, hpath⟩
    refine ⟨id, .tail' (ReflTransGen.mono (fun _ _ hstep => hstep.1) _ _ hreach) ?_⟩
    exact (h.inherits_numbered hnames hid' hid).mpr hlast

end Collected

/-! ### Obligations -/

theorem mayBeIncomplete_iff {c : ClassInfo} {d : TypeDef} (hdecl : c.toClassDecl = d.decl) :
    c.mayBeIncomplete = true ↔ d.MayBeIncomplete := by
  have hkind : c.kind = d.kind := congrArg ClassDecl.kind hdecl
  have hmodifiers : c.modifiers = d.modifiers.set := congrArg ClassDecl.modifiers hdecl
  simp only [ClassInfo.mayBeIncomplete, hkind, hmodifiers, TypeDef.MayBeIncomplete,
    ModifierList.contains, Bool.or_eq_true, beq_iff_eq]

/-- What a table says of definitions without circles: their heads, their methods, and which
definitions stand in their chains. -/
structure Settled (ds : List TypeDef) (t : SymbolTable) : Prop where
  decl : ∀ p ∈ numbered ds, (t.classInfo p.2).toClassDecl = p.1.decl
  methodsOfRoot : t.methodInfos .root = []
  methods : ∀ p ∈ numbered ds, t.methodInfos p.2 = p.1.methods.map (·.info p.2)
  chain : ∀ p ∈ numbered ds, ∀ c, c ∈ t.chain p.2 ↔
    c = .root ∨ ∃ q ∈ numbered ds, q.2 = c ∧ ReflTransGen (TypeDef.Inherits ds) p.1 q.1

namespace Settled

variable {ds : List TypeDef} {t : SymbolTable} {p : TypeDef × ClassId} (h : Settled ds t)
  (hp : p ∈ numbered ds)
include h hp

theorem mayBeIncomplete : (t.classInfo p.2).mayBeIncomplete = true ↔ p.1.MayBeIncomplete :=
  mayBeIncomplete_iff (h.decl p hp)

theorem mem_chainInfos {info : MethodInfo} :
    info ∈ t.chainInfos p.2 ↔ ∃ q ∈ numbered ds,
      ReflTransGen (TypeDef.Inherits ds) p.1 q.1 ∧ ∃ m ∈ q.1.methods, m.info q.2 = info := by
  rw [SymbolTable.chainInfos, List.mem_flatMap]
  constructor
  · rintro ⟨c, hc, hinfo⟩
    rcases (h.chain p hp c).mp hc with rfl | ⟨q, hq, rfl, hpath⟩
    · rw [h.methodsOfRoot] at hinfo
      cases hinfo
    · rw [h.methods q hq] at hinfo
      exact ⟨q, hq, hpath, List.mem_map.mp hinfo⟩
  · rintro ⟨q, hq, hpath, hinfo⟩
    refine ⟨q.2, (h.chain p hp q.2).mpr (Or.inr ⟨q, hq, rfl, hpath⟩), ?_⟩
    rw [h.methods q hq]
    exact List.mem_map.mpr hinfo

theorem complete_iff : t.Complete p.2 ↔ p.1.Implements ds := by
  have hnumber {e : TypeDef} (hpath : ReflTransGen (TypeDef.Inherits ds) p.1 e) :
      ∃ id, (e, id) ∈ numbered ds := by
    rcases hpath.cases_tail with rfl | ⟨e', -, hstep⟩
    · exact ⟨p.2, hp⟩
    · exact exists_numbered hstep.2.1
  constructor
  · intro hcomplete e hpath m hm habstract
    obtain ⟨id, hid⟩ := hnumber hpath
    obtain ⟨info, hinfo, hbody, hsignature⟩ :=
      hcomplete _ ((h.mem_chainInfos hp).mpr ⟨_, hid, hpath, m, hm, rfl⟩) habstract
    obtain ⟨q, -, hpath', m', hm', rfl⟩ := (h.mem_chainInfos hp).mp hinfo
    rw [Method.info_signature, Method.info_signature, Signature.mk.injEq] at hsignature
    exact ⟨q.1, hpath', m', hm', hbody, hsignature⟩
  · intro himplements info hinfo habstract
    obtain ⟨q, -, hpath, m, hm, rfl⟩ := (h.mem_chainInfos hp).mp hinfo
    obtain ⟨e, hpath', m', hm', hbody, hname, harity⟩ := himplements q.1 hpath m hm habstract
    obtain ⟨id, hid⟩ := hnumber hpath'
    refine ⟨_, (h.mem_chainInfos hp).mpr ⟨_, hid, hpath', m', hm', rfl⟩, hbody, ?_⟩
    rw [Method.info_signature, Method.info_signature, hname, harity]

theorem harmless_members {r : Registry} {owner : Owner}
    (hmethods : ∀ m ∈ p.1.methods, ∃ id, r.methodOf m = .ok id ∧ t.methodInfo id = m.info p.2) :
    (∀ v ∈ p.1.members.map (Member.entry r owner), Harmless (Visit.obligations t v)) ↔
      ∀ m ∈ p.1.methods, m.isAbstract = true → p.1.MayBeIncomplete := by
  rw [List.forall_mem_map]
  have hmember : ∀ m ∈ p.1.methods,
      (Harmless (Visit.obligations t (Member.entry r owner (.method m))) ↔
        (m.isAbstract = true → p.1.MayBeIncomplete)) := by
    intro m hm
    obtain ⟨id, hid, hinfo⟩ := hmethods m hm
    rw [Member.entry, hid, Visit.harmless_obligations_method]
    simp only [Except.toOption, Option.getD_some, hinfo, ← h.mayBeIncomplete hp]
    rfl
  constructor
  · intro hall m hm
    obtain ⟨member, hmem, hmethod⟩ := List.mem_filterMap.mp hm
    cases member with
    | field f => cases hmethod
    | method m' =>
      obtain rfl := Option.some.inj hmethod
      exact (hmember _ hm).mp (hall _ hmem)
  · intro hall member hmem
    cases member with
    | field f => exact harmless_nil
    | method m =>
      have hm : m ∈ p.1.methods := List.mem_filterMap.mpr ⟨_, hmem, rfl⟩
      exact (hmember m hm).mpr (hall m hm)

theorem harmless_entries {r : Registry} (hid : r.classOf p.1 = .ok p.2)
    (hmethods : ∀ m ∈ p.1.methods, ∃ id, r.methodOf m = .ok id ∧ t.methodInfo id = m.info p.2) :
    (∀ v ∈ p.1.entries r, Harmless (Visit.obligations t v)) ↔
      (¬ p.1.MayBeIncomplete →
        (∀ m ∈ p.1.methods, m.isAbstract = false) ∧ p.1.Implements ds) := by
  rw [TypeDef.entries, hid, List.forall_mem_cons, h.harmless_members hp hmethods]
  simp only [Except.toOption, Option.getD_some]
  have hmay := h.mayBeIncomplete hp
  by_cases hincomplete : p.1.MayBeIncomplete
  · simp only [hincomplete, not_true_eq_false, false_imp_iff, iff_true, implies_true, and_true]
    by_cases hkind : p.1.kind = .trait
    · exact Visit.harmless_obligations_trait hkind
    · rw [Visit.harmless_obligations_type hkind, Visit.outstanding, if_pos (hmay.mpr hincomplete)]
  · have hkind : p.1.kind ≠ .trait := fun htrait => hincomplete (Or.inl htrait)
    have hfalse : (t.classInfo p.2).mayBeIncomplete = false :=
      Bool.eq_false_iff.mpr fun htrue => hincomplete (hmay.mp htrue)
    simp only [hincomplete, not_false_eq_true, true_imp_iff, imp_false, Bool.not_eq_true]
    rw [Visit.harmless_obligations_type hkind, and_comm, and_congr_right_iff, ← h.complete_iff hp]
    intro hbodies
    refine Visit.outstanding_eq_nil_iff hfalse fun info hinfo howner => ?_
    obtain ⟨q, hq, -, m, hm, rfl⟩ := (h.mem_chainInfos hp).mp hinfo
    obtain rfl : q = p := List.inj_on_of_nodup_map (nodup_numbered ds) hq hp howner
    exact hbodies m hm

omit hp in
theorem harmless_visits {r : Registry} {vs : List Visit}
    (hentries : definitionVisits vs = ds.flatMap (TypeDef.entries r))
    (hids : ∀ p ∈ numbered ds, r.classOf p.1 = .ok p.2)
    (hmethods : ∀ p ∈ numbered ds, ∀ m ∈ p.1.methods,
      ∃ id, r.methodOf m = .ok id ∧ t.methodInfo id = m.info p.2) :
    (∀ v ∈ vs, Harmless (Visit.obligations t v)) ↔ ∀ d ∈ ds, ¬ d.MayBeIncomplete →
      (∀ m ∈ d.methods, m.isAbstract = false) ∧ d.Implements ds := by
  have hplain : ∀ v : Visit, v.isDefinition = false → Harmless (Visit.obligations t v) := by
    intro v hv
    cases v with
    | type | method | field => cases hv
    | _ => exact harmless_nil
  rw [forall_definitionVisits hplain, hentries]
  simp only [List.mem_flatMap, forall_exists_index, and_imp]
  constructor
  · intro hall d hd
    obtain ⟨id, hid⟩ := exists_numbered hd
    exact (h.harmless_entries hid (hids _ hid) (hmethods _ hid)).mp fun v hv => hall v d hd hv
  · intro hall v d hd hv
    obtain ⟨id, hid⟩ := exists_numbered hd
    exact (h.harmless_entries hid (hids _ hid) (hmethods _ hid)).mpr (hall d hd) v hv

end Settled

/-! ### The table after all analyses -/

theorem classIds_assigned (a : Analysis) (ps : List (TypeDef × ClassId)) :
    (a.assigned ps).symbols.classIds = a.symbols.classIds := by
  have hsize := (frame_foldl_assign (t := a.symbols) ps a.symbols).1
  rw [SymbolTable.classIds, SymbolTable.classIds]
  exact congrArg (fun n => (List.range n).map ClassId.mk) hsize

section Final

variable {units : List Program} {a final : Analysis} {cycles : List (List ClassId)}
  {reports : List Diagnostic} {ps : List (TypeDef × ClassId)}

theorem frame_final (hu : a.Untangles ps units final cycles reports) (c : ClassId) :
    ∃ superclass traits, final.symbols.classInfo c =
      { a.symbols.classInfo c with superclass := superclass, traits := traits } := by
  obtain ⟨superclass, traits, hinfo⟩ := classInfo_frame_assign (t := a.symbols) ps a.symbols c
  rw [hu.kept c, assigned, hinfo]
  exact ⟨_, _, rfl⟩

theorem methodInfos_final (hu : a.Untangles ps units final cycles reports) :
    final.symbols.methodInfo = a.symbols.methodInfo ∧
      final.symbols.methodInfos = a.symbols.methodInfos := by
  have hmethods : final.symbols.methods = a.symbols.methods :=
    hu.methods.trans (frame_foldl_assign _ _).2.2
  have hinfo : final.symbols.methodInfo = a.symbols.methodInfo := by
    funext id
    rw [SymbolTable.methodInfo, SymbolTable.methodInfo, hmethods]
  refine ⟨hinfo, ?_⟩
  funext c
  obtain ⟨superclass, traits, hc⟩ := frame_final hu c
  rw [SymbolTable.methodInfos, SymbolTable.methodInfos, hinfo, hc]
  rfl

theorem Collected.settled (h : Collected (units.flatMap (·.definitions)) a)
    (hharmless : Harmless a.diagnostics)
    (hu : a.Untangles (numbered (units.flatMap (·.definitions))) units final cycles []) :
    Settled (units.flatMap (·.definitions)) final.symbols := by
  have hnames := (h.harmless.mp hharmless).1
  obtain ⟨hroot, hmethods⟩ := h.accepted hharmless
  have hinfos := (methodInfos_final hu).2
  have hcycles : cycles = [] := by
    have hreported := hu.reported.2
    cases hreported
    rfl
  have hinherits : final.symbols.Inherits =
      (a.resolved (units.flatMap (·.definitions))).symbols.Inherits := by
    funext heir parent
    rw [SymbolTable.Inherits, hu.kept, hcycles]
    simp only [List.flatMap_nil, List.not_mem_nil, decide_false, ClassInfo.without_false]
    rfl
  have hids : final.symbols.classIds =
      (a.resolved (units.flatMap (·.definitions))).symbols.classIds := by
    obtain ⟨n, hbreaks, hlast⟩ := hu.broken
    rw [← hlast]
    exact hbreaks.classIds
  refine ⟨fun p hp => ?_, by rw [hinfos, hroot], fun p hp => by rw [hinfos, hmethods p hp], ?_⟩
  · obtain ⟨superclass, traits, hc⟩ := frame_final hu p.2
    rw [hc]
    exact h.decl p hp
  · intro p hp c
    have hknown : ∀ x y, final.symbols.Inherits x y → y ∈ final.symbols.classIds := by
      intro x y hxy
      rw [hinherits] at hxy
      rw [hids]
      exact ((h.sound fun p hp => h.index_lt hp).closed x y
        ((h.sound fun p hp => h.index_lt hp).backed x y hxy)).2
    have hid : p.2 ∈ final.symbols.classIds := by
      rw [hids, SymbolTable.mem_classIds]
      exact (h.index_lt hp).trans_eq (frame_foldl_assign _ _).1.symm
    rw [SymbolTable.mem_chain hknown hid (ne_root_of_numbered hp), hinherits,
      h.reaches_iff hnames hp]

end Final

theorem Collected.harmless_unresolvedParents {ds : List TypeDef} {a : Analysis}
    (h : Collected ds a) :
    Harmless (a.unresolvedParents ds) ↔
      ∀ d ∈ ds, ∀ name ∈ d.parentNames, name = "Any" ∨ ∃ e ∈ ds, e.name.text = name := by
  have hname : ∀ name, name ∈ a.symbols.names ↔ name = "Any" ∨ ∃ e ∈ ds, e.name.text = name := by
    intro name
    rw [h.names, List.mem_cons, List.mem_map]
  simp only [unresolvedParents, harmless_flatMap, Resolution.harmless_ofTypeDef, hname]
  constructor
  · intro hall d hd
    obtain ⟨id, hid⟩ := exists_numbered hd
    exact hall _ hid
  · intro hall p hp
    exact hall p.1 (mem_of_numbered hp)

end Analysis

/-! ### All analyses -/

/-- What all analyses report: what resolving supertypes has left, the fields without a value, and
what is missing from types and methods. -/
theorem exists_analyze {units : List Program} {final : Analysis} {vs : List Visit}
    (hfinal : (Analysis.initial.collectDeclarations units).resolveSupertypes units = .ok final)
    (hvisits : visitsOfAll final.registry units = .ok vs) :
    ∃ a, analyze units = .ok a ∧ (Harmless a.diagnostics ↔ Harmless final.diagnostics ∧
      (∀ v ∈ vs, v.bareField? = none) ∧
      ∀ v ∈ vs, Harmless (Visit.obligations final.symbols v)) := by
  obtain ⟨structured, hstructured, hsymbols, hregistry, hharmless⟩ :=
    Analysis.exists_checkStructure (a := final.log [.stageReached .parsed .symbolsBuilt]) hvisits
  have hvisits' :
      visitsOfAll (structured.log [.stageReached .symbolsBuilt .structureValidated]).registry
        units = .ok vs := by
    rw [Analysis.log_registry, hregistry]
    exact hvisits
  obtain ⟨checked, hchecked, hharmless'⟩ := Analysis.exists_checkObligations hvisits'
  refine ⟨checked.log [.stageReached .structureValidated .obligationsValidated], ?_, ?_⟩
  · simp only [analyze, hfinal, bind, Except.bind, hstructured, hchecked, pure, Except.pure]
  · refine hharmless'.trans ?_
    rw [Analysis.log_symbols, hsymbols]
    exact (and_congr_left' hharmless).trans and_assoc

theorem Untangled.harmless_reports {units : List Program} {collected resolved final : Analysis}
    {edges : List Inheritance} {cycles : List (List ClassId)} {reports : List Diagnostic}
    (hu : Untangled units collected resolved edges final cycles reports) :
    Harmless reports ↔ reports = [] := by
  constructor
  · intro h
    have hreported := hu.reported.2
    cases hreported with
    | nil => rfl
    | cons hreport _ =>
      obtain ⟨first, rest, rfl, -⟩ := hreport
      exact Bool.noConfusion (h _ (List.mem_cons_self ..))
  · rintro rfl
    exact harmless_nil

theorem Analysis.Collected.knows {ds : List TypeDef} {a : Analysis} (h : Collected ds a) :
    ∀ d ∈ ds, (∃ id, a.registry.classOf d = .ok id) ∧ ∀ m ∈ d.members, m.Known a.registry := by
  intro d hd
  have hsignature : d.signature ∈ a.registry.classes.map (·.1) := by
    obtain ⟨id, hid⟩ := exists_numbered hd
    rw [h.classes, List.map_reverse, List.mem_reverse, List.map_map]
    exact List.mem_map.mpr ⟨_, hid, rfl⟩
  obtain ⟨id, hid⟩ := exists_lookup_of_mem hsignature
  refine ⟨⟨id, by rw [Registry.classOf, hid]⟩, fun m hm => ?_⟩
  cases m with
  | field f => exact h.fieldOf hd (List.mem_filterMap.mpr ⟨_, hm, rfl⟩)
  | method m =>
    have hm' : m ∈ d.methods := List.mem_filterMap.mpr ⟨_, hm, rfl⟩
    have hkey : m.signature ∈ a.registry.methods.reverse.map (·.1) := by
      rw [h.methods_keys]
      exact List.mem_map_of_mem (List.mem_flatMap.mpr ⟨d, hd, hm'⟩)
    rw [List.map_reverse, List.mem_reverse] at hkey
    obtain ⟨method, hmethod⟩ := exists_lookup_of_mem hkey
    exact ⟨method, by rw [Registry.methodOf, hmethod]⟩

/-- The analyses of parsed units find no error exactly if the definitions follow the rules. -/
theorem harmless_analyze_iff {texts : List (SourceFile × String)} {units : List Program}
    (hfiles : (texts.map (·.1)).Nodup) (hparsed : parseAll texts = .ok units) :
    ∃ a, analyze units = .ok a ∧
      (Harmless a.diagnostics ↔ WellFormed (units.flatMap (·.definitions))) := by
  have htypes := nodup_signatures hfiles hparsed
  have hmethods := nodup_methodSignatures hfiles hparsed
  have h := Analysis.collected units
  obtain ⟨cycles, reports, hu⟩ := untangled_resolvedUnits htypes
  have hregistry : (resolvedUnits units).registry =
      (Analysis.initial.collectDeclarations units).registry := hu.registry
  obtain ⟨vs, hvs, hentries⟩ := exists_visitsOfAll (h.knows)
  obtain ⟨a, ha, hharmless⟩ := exists_analyze hu.result (hregistry ▸ hvs)
  refine ⟨a, ha, ?_⟩
  -- Obligations are read off a table that is right only if there were no errors before.
  have hobligations (hdeclared : Harmless (Analysis.initial.collectDeclarations units).diagnostics)
      (hreports : reports = []) :
      (∀ v ∈ vs, Harmless (Visit.obligations (resolvedUnits units).symbols v)) ↔
        ∀ d ∈ units.flatMap (·.definitions), ¬ d.MayBeIncomplete →
          (∀ m ∈ d.methods, m.isAbstract = false) ∧
            d.Implements (units.flatMap (·.definitions)) := by
    subst hreports
    refine (h.settled hdeclared hu).harmless_visits hentries (fun p hp => h.classOf htypes hp) ?_
    intro p hp m hm
    rw [(Analysis.methodInfos_final hu).1]
    exact h.methodOf hmethods hp hm
  have hresolved : Harmless (resolvedUnits units).diagnostics ↔
      Harmless (Analysis.initial.collectDeclarations units).diagnostics ∧
        Harmless ((Analysis.initial.collectDeclarations units).unresolvedParents
          (units.flatMap (·.definitions))) ∧ reports = [] := by
    rw [hu.reported.1, harmless_append, hu.harmless_reports, Analysis.assigned, harmless_append,
      and_assoc, Analysis.unresolvedParents]
  have hcircles (hnames : ("Any" :: (units.flatMap (·.definitions)).map
      fun d => d.name.text).Nodup) : reports = [] ↔
        ∀ d ∈ units.flatMap (·.definitions),
          ¬ TransGen (TypeDef.Inherits (units.flatMap (·.definitions))) d d := by
    rw [← not_iff_not, ← ne_eq, hu.circle_iff h.inStep_resolved, h.exists_circle_iff hnames]
    simp only [not_forall, not_not, exists_prop]
  rw [hharmless, hresolved, h.harmless_unresolvedParents, forall_bareField?_iff hentries]
  constructor
  · rintro ⟨⟨hdeclared, hparents, hreports⟩, hfields, hcomplete⟩
    obtain ⟨hnames, hwell⟩ := h.harmless.mp hdeclared
    exact ⟨hnames, hwell, hparents, (hcircles hnames).mp hreports, hfields,
      (hobligations hdeclared hreports).mp hcomplete⟩
  · intro hw
    have hdeclared := h.harmless.mpr ⟨hw.names, hw.declared⟩
    have hreports := (hcircles hw.names).mpr hw.acyclic
    exact ⟨⟨hdeclared, hw.parents, hreports⟩, hw.initialized,
      (hobligations hdeclared hreports).mpr hw.complete⟩

/-! ### Compiling -/

theorem exists_program_of_toBool {file : SourceFile} {text : String}
    (hok : (Program.ofText file text).toBool = true) : ∃ p, Program.ofText file text = .ok p := by
  cases h : Program.ofText file text with
  | error es =>
    rw [h] at hok
    cases hok
  | ok p => exact ⟨p, rfl⟩

theorem parseAll_cons {file : SourceFile} {text : String} {rest : List (SourceFile × String)}
    {p : Program} {ps : List Program} (h : Program.ofText file text = .ok p)
    (hrest : parseAll rest = .ok ps) : parseAll ((file, text) :: rest) = .ok (p :: ps) := by
  rw [parseAll, h, hrest]

def TypeDef.head (d : TypeDef) : String × List String := (d.name.text, d.supertypeNames)

/-- A definition that inherits from nothing and follows the rules by itself. -/
structure TypeDef.Independent (d : TypeDef) : Prop where
  supertypes : d.supertypeNames = []
  declared : d.WellDeclared
  initialized : ∀ f ∈ d.fields, f.initializer.isGiven = true
  complete : d.MayBeIncomplete ∨ ∀ m ∈ d.methods, m.isAbstract = false

instance (d : TypeDef) : Decidable d.Independent :=
  decidable_of_iff
    (d.supertypeNames = [] ∧ d.WellDeclared ∧ (∀ f ∈ d.fields, f.initializer.isGiven = true) ∧
      (d.MayBeIncomplete ∨ ∀ m ∈ d.methods, m.isAbstract = false))
    ⟨fun h => ⟨h.1, h.2.1, h.2.2.1, h.2.2.2⟩,
      fun h => ⟨h.supertypes, h.declared, h.initialized, h.complete⟩⟩

theorem wellFormed_of_independent {ds : List TypeDef}
    (hnames : ("Any" :: ds.map fun d => d.name.text).Nodup) (h : ∀ d ∈ ds, d.Independent) :
    WellFormed ds := by
  have hinherits {d e : TypeDef} : ¬ TypeDef.Inherits ds d e := by
    rintro ⟨hd, -, hname⟩
    rw [(h d hd).supertypes] at hname
    cases hname
  refine ⟨hnames, fun d hd => (h d hd).declared, fun d hd name hname => ?_, fun d _ hcircle => ?_,
    fun d hd => (h d hd).initialized, fun d hd hcomplete => ?_⟩
  · have hparents := (List.append_eq_nil_iff.mp (h d hd).supertypes).1
    rw [hparents] at hname
    cases hname
  · obtain ⟨e, he, -⟩ := TransGen.head'_iff.mp hcircle
    exact hinherits he
  · have hbodies := (h d hd).complete.resolve_left hcomplete
    refine ⟨hbodies, fun e he m hm habstract => ?_⟩
    rcases ReflTransGen.cases_head he with rfl | ⟨e', he', -⟩
    · exact absurd habstract (by simp [hbodies m hm])
    · exact absurd he' hinherits

def preludeNames : List String :=
  ["Int", "Long", "Double", "Boolean", "Char", "String", "Unit", "AnyRef", "Product",
    "Serializable", "Function0", "Function1", "Function2"]

theorem prelude_checked :
    (Program.ofText .prelude preludeText).toOption.map (fun p =>
        (p.definitions.map TypeDef.head, decide (∀ d ∈ p.definitions,
          d.Independent ∧ d.modifiers.spanOf? .abstract = none))) =
      some (preludeNames.map (·, []), true) := by
  decide +kernel

theorem prelude_heads :
    (Program.ofText .prelude preludeText).toOption.map (fun p => p.definitions.map TypeDef.head) =
      some (preludeNames.map (·, [])) := by
  have hheads := congrArg (Option.map Prod.fst) prelude_checked
  rwa [Option.map_map] at hheads

theorem prelude_plain {p : Program} (hp : Program.ofText .prelude preludeText = .ok p) :
    ∀ d ∈ p.definitions, d.Independent ∧ d.modifiers.spanOf? .abstract = none := by
  have hchecked := congrArg (Option.map Prod.snd) prelude_checked
  rw [hp, Option.map_map] at hchecked
  exact of_decide_eq_true (Option.some.inj hchecked)

theorem prelude_independent {p : Program} (hp : Program.ofText .prelude preludeText = .ok p) :
    ∀ d ∈ p.definitions, d.Independent :=
  fun d hd => (prelude_plain hp d hd).1

theorem prelude_toBool : (Program.ofText .prelude preludeText).toBool = true := by
  have hheads := prelude_heads
  cases h : Program.ofText .prelude preludeText with
  | error es =>
    rw [h] at hheads
    cases hheads
  | ok p => rfl

theorem exists_parseAll {source : String} {program : Program}
    (hparsed : Program.ofText .user source = .ok program) (noPrelude : Bool) :
    ∃ units, parseAll (sourceTexts noPrelude source) = .ok units := by
  obtain ⟨p, hp⟩ := exists_program_of_toBool prelude_toBool
  cases noPrelude with
  | true => exact ⟨[program], parseAll_cons hparsed rfl⟩
  | false => exact ⟨[p, program], parseAll_cons hp (parseAll_cons hparsed rfl)⟩

theorem exists_compile {options : CompilerOptions} {source : String} {units : List Program}
    {a : Analysis} (hunits : parseAll (sourceTexts options.noPrelude source) = .ok units)
    (ha : analyze units = .ok a) :
    ∃ c, compile options source = .ok c ∧ (c.stage = .generated ↔ Harmless a.diagnostics) ∧
      (c.artifact.isSome = true ↔ Harmless a.diagnostics) := by
  let started : List Event := [.stageReached .init .lexed, .stageReached .lexed .parsed]
  rw [← any_isError_eq_false_iff]
  cases herrors : a.diagnostics.any Diagnostic.isError with
  | true =>
    refine ⟨.stopped .obligationsValidated a.diagnostics (started ++ a.events), ?_, ?_⟩
    · simp only [compile, hunits, ha, herrors, bind, Except.bind]
      rfl
    · simp [Compilation.stopped]
  | false =>
    refine ⟨.finished options (units.getLast?.getD ⟨[]⟩) a.symbols a.diagnostics
      (started ++ a.events), ?_, ?_⟩
    · simp only [compile, hunits, ha, herrors, bind, Except.bind]
      rfl
    · simp [Compilation.finished]

/-- A text without syntax errors is compiled, with or without the prelude, exactly if all
definitions together follow the rules. -/
theorem compile_generates_iff {source : String} {program : Program}
    (hparsed : Program.ofText .user source = .ok program) (options : CompilerOptions) :
    ∃ units c, parseAll (sourceTexts options.noPrelude source) = .ok units ∧
      compile options source = .ok c ∧
      (c.stage = .generated ↔ WellFormed (units.flatMap (·.definitions))) ∧
      (c.artifact.isSome = true ↔ WellFormed (units.flatMap (·.definitions))) := by
  obtain ⟨units, hunits⟩ := exists_parseAll hparsed options.noPrelude
  have hfiles : ((sourceTexts options.noPrelude source).map (·.1)).Nodup := by
    cases options.noPrelude <;> simp [sourceTexts]
  obtain ⟨a, ha, hharmless⟩ := harmless_analyze_iff hfiles hunits
  obtain ⟨c, hc, hstage, hartifact⟩ := exists_compile hunits ha
  exact ⟨units, c, hunits, hc, hstage.trans hharmless, hartifact.trans hharmless⟩

/-- A class that inherits a method without a body and does not implement it, and one that does. -/
theorem compile_generates_iff_unimplemented :
    let source := "trait A \x7b def f(x: A): A \x7d\nclass B extends A\n" ++
      "class C extends A \x7b def f(x: A): A = x \x7d"
    ∃ program, Program.ofText .user source = .ok program ∧ ∃ units c,
      parseAll (sourceTexts true source) = .ok units ∧
      compile { noPrelude := true } source = .ok c ∧
      (c.stage = .generated ↔ WellFormed (units.flatMap (·.definitions))) ∧
      (c.artifact.isSome = true ↔ WellFormed (units.flatMap (·.definitions))) := by
  intro source
  have hok : (Program.ofText .user source).toBool = true := by decide +kernel
  obtain ⟨program, hprogram⟩ := exists_program_of_toBool hok
  exact ⟨program, hprogram, compile_generates_iff hprogram { noPrelude := true }⟩

end Mixin
