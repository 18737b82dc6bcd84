import Mixin.Analysis.Declarations
import Mixin.Proofs.Entries
import Mixin.Proofs.Symbol.MemberInfo

/-!
# What collecting declarations finds

Collecting declarations reports no error exactly if the definitions are well declared: no two types
share a name, and in each type the parameters have different names and no two members clash. If so,
the table holds every method of every type. In any case the table holds every type under the number
of its definition, and the registry knows every definition.
-/

namespace Mixin

/-- None of the problems keeps a program from being compiled. -/
def Harmless (ds : List Diagnostic) : Prop := ∀ d ∈ ds, d.isError = false

@[simp] theorem harmless_nil : Harmless [] := by
  simp [Harmless]

@[simp] theorem harmless_append {ds es : List Diagnostic} :
    Harmless (ds ++ es) ↔ Harmless ds ∧ Harmless es := by
  simp only [Harmless, List.mem_append, or_imp, forall_and]

@[simp] theorem harmless_singleton {d : Diagnostic} : Harmless [d] ↔ d.isError = false := by
  simp [Harmless]

theorem harmless_flatMap {α : Type} {f : α → List Diagnostic} {l : List α} :
    Harmless (l.flatMap f) ↔ ∀ a ∈ l, Harmless (f a) := by
  simp only [Harmless, List.mem_flatMap]
  constructor
  · intro h a ha d hd
    exact h d ⟨a, ha, hd⟩
  · rintro h d ⟨a, ha, hd⟩
    exact h a ha d hd

theorem harmless_map_iff {α : Type} {f : α → Diagnostic} (hf : ∀ a, (f a).isError = true)
    {l : List α} : Harmless (l.map f) ↔ l = [] := by
  constructor
  · intro h
    refine List.eq_nil_iff_forall_not_mem.mpr fun a ha => ?_
    exact Bool.noConfusion ((hf a).symm.trans (h _ (List.mem_map_of_mem ha)))
  · rintro rfl
    exact harmless_nil

theorem any_isError_eq_false_iff {ds : List Diagnostic} :
    ds.any Diagnostic.isError = false ↔ Harmless ds := by
  simp [Harmless]

/-! ### Parameters -/

namespace SymbolTable

theorem harmless_reportRepeated (earlier names : List Ident) :
    Harmless (reportRepeated earlier names) ↔
      (names.map (·.text)).Nodup ∧ ∀ e ∈ earlier, e.text ∉ names.map (·.text) := by
  induction names generalizing earlier with
  | nil => simp [reportRepeated]
  | cons name rest ih =>
    rw [reportRepeated]
    cases hfound : earlier.find? fun e => e.text == name.text with
    | some e =>
      have he := List.find?_some hfound
      have hmem := List.mem_of_find?_eq_some hfound
      constructor
      · intro h
        have hd := h _ (List.mem_cons_self ..)
        cases hd
      · rintro ⟨-, hapart⟩
        refine absurd ?_ (hapart e hmem)
        rw [beq_iff_eq.mp he]
        exact List.mem_cons_self ..
    | none =>
      have hnone : ∀ e ∈ earlier, e.text ≠ name.text := by
        simpa using hfound
      simp only [ih, List.map_cons, List.nodup_cons, List.mem_append, List.mem_cons,
        List.not_mem_nil, or_false, not_or]
      constructor
      · rintro ⟨hnodup, hapart⟩
        exact ⟨⟨hapart name (Or.inr rfl), hnodup⟩,
          fun e he => ⟨hnone e he, hapart e (Or.inl he)⟩⟩
      · rintro ⟨⟨hname, hnodup⟩, hapart⟩
        refine ⟨hnodup, ?_⟩
        rintro e (he | rfl)
        · exact (hapart e he).2
        · exact hname

theorem harmless_checkParameters {names : List Ident} :
    Harmless (checkParameters names) ↔ (names.map (·.text)).Nodup := by
  rw [checkParameters, harmless_reportRepeated]
  simp

end SymbolTable

theorem distinctBy_eq_self {α β : Type} [DecidableEq β] {key : α → β} {seen : List β} {l : List α}
    (hnodup : (l.map key).Nodup) (hseen : ∀ a ∈ l, key a ∉ seen) : distinctBy key seen l = l := by
  induction l generalizing seen with
  | nil => rfl
  | cons a rest ih =>
    rw [List.map_cons, List.nodup_cons] at hnodup
    rw [distinctBy, if_neg (hseen a (List.mem_cons_self ..))]
    refine congrArg (a :: ·) (ih hnodup.2 fun b hb => ?_)
    rw [List.mem_cons, not_or]
    refine ⟨?_, hseen b (List.mem_cons_of_mem _ hb)⟩
    intro heq
    exact hnodup.1 (heq ▸ List.mem_map_of_mem hb)

/-! ### Slots of a definition -/

def Member.slot : Member → Slot
  | field f => .field f.name.text
  | method m => .method ⟨m.name.text, m.arity⟩

def Member.ParametersDistinct : Member → Prop
  | field _ => True
  | method m => (m.parameters.map fun p => p.name.text).Nodup

def Parameter.slot? (p : Parameter) : Option Slot := p.binding.map fun _ => .field p.name.text

def TypeDef.slots (d : TypeDef) : List Slot :=
  d.parameters.filterMap Parameter.slot? ++ d.members.map Member.slot

/-- In a type all names that have to be different are: those of its parameters, those of the
parameters of each method, and those of its members. -/
structure TypeDef.WellDeclared (d : TypeDef) : Prop where
  parameters : (d.parameters.map fun p => p.name.text).Nodup
  methods : ∀ m ∈ d.members, m.ParametersDistinct
  slots : d.slots.Pairwise fun s s' => ¬ s.Clashes s'

instance (m : Member) : Decidable m.ParametersDistinct :=
  match m with
  | .field _ => isTrue trivial
  | .method m => inferInstanceAs (Decidable (m.parameters.map fun p => p.name.text).Nodup)

instance (d : TypeDef) : Decidable d.WellDeclared :=
  decidable_of_iff
    ((d.parameters.map fun p => p.name.text).Nodup ∧ (∀ m ∈ d.members, m.ParametersDistinct) ∧
      d.slots.Pairwise fun s s' => ¬ s.Clashes s')
    ⟨fun h => ⟨h.1, h.2.1, h.2.2⟩, fun h => ⟨h.parameters, h.methods, h.slots⟩⟩

theorem Method.info_signature (m : Method) (owner : ClassId) :
    (m.info owner).signature = ⟨m.name.text, m.arity⟩ := by
  simp [MethodInfo.signature, Method.info, Method.arity]

theorem Method.info_parameters (m : Method) (owner : ClassId) :
    ((m.info owner).parameters.map (·.name)).map (·.text) =
      m.parameters.map fun p => p.name.text := by
  simp [Method.info]

namespace Analysis

/-! ### Members -/

/-- An entry of the registry leads to what is known of a method. -/
def Leads (t : SymbolTable) (entry : Span × MethodId) (m : Method) (owner : ClassId) : Prop :=
  entry.1 = m.signature ∧ entry.2.index < t.methods.size ∧ t.methodInfo entry.2 = m.info owner

/-- What is left when `a` goes on to `a'` by declaring some of the parameters and some members of
`owner`, which would occupy the slots `added`. -/
structure Declares (owner : ClassId) (a a' : Analysis) (added : List Slot) (members : List Member) :
    Prop where
  grows : SymbolTable.Grows owner a.symbols a'.symbols
  classes : a'.registry.classes = a.registry.classes
  fields : ∀ span ∈ a.registry.fields.map (·.1), span ∈ a'.registry.fields.map (·.1)
  fieldsEntered : ∀ f ∈ members.filterMap Member.field?, f.span ∈ a'.registry.fields.map (·.1)
  methodsEntered : ∃ entries, a'.registry.methods = entries.reverse ++ a.registry.methods ∧
    List.Forall₂ (fun entry m => Leads a'.symbols entry m owner) entries
      (members.filterMap Member.method?)
  harmless : Harmless a'.diagnostics ↔ Harmless a.diagnostics ∧
    (∀ m ∈ members, m.ParametersDistinct) ∧ Slot.Admits (a.symbols.slots owner) added
  accepted : Slot.Admits (a.symbols.slots owner) added →
    a'.symbols.slots owner = a.symbols.slots owner ++ added ∧
      a'.symbols.methodInfos owner = a.symbols.methodInfos owner ++
        (members.filterMap Member.method?).map (·.info owner)

theorem Leads.grows {t t' : SymbolTable} {entry : Span × MethodId} {m : Method} {c owner : ClassId}
    (h : Leads t entry m c) (hg : SymbolTable.Grows owner t t') : Leads t' entry m c := by
  obtain ⟨hkey, hlt, hinfo⟩ := h
  refine ⟨hkey, ?_, (SymbolTable.methodInfo_of_extension hg.methods hlt).trans hinfo⟩
  have hlen := hg.methods.length_le
  simp only [Array.length_toList] at hlen
  omega

theorem Declares.refl (owner : ClassId) (a : Analysis) : Declares owner a a [] [] where
  grows := .refl owner a.symbols
  classes := rfl
  fields := fun _ h => h
  fieldsEntered := by simp
  methodsEntered := ⟨[], by simp⟩
  harmless := by simp [Slot.admits_nil]
  accepted := by simp

theorem Declares.trans {owner : ClassId} {a a' a'' : Analysis} {xs ys : List Slot}
    {ms ns : List Member} (h : Declares owner a a' xs ms) (h' : Declares owner a' a'' ys ns) :
    Declares owner a a'' (xs ++ ys) (ms ++ ns) where
  grows := h.grows.trans h'.grows
  classes := h'.classes.trans h.classes
  fields := fun span hspan => h'.fields span (h.fields span hspan)
  fieldsEntered := by
    intro f hf
    rw [List.filterMap_append] at hf
    rcases List.mem_append.mp hf with hf | hf
    · exact h'.fields _ (h.fieldsEntered f hf)
    · exact h'.fieldsEntered f hf
  methodsEntered := by
    obtain ⟨es, hes, hms⟩ := h.methodsEntered
    obtain ⟨es', hes', hns⟩ := h'.methodsEntered
    refine ⟨es ++ es', by simp [hes', hes], ?_⟩
    rw [List.filterMap_append]
    exact List.rel_append (hms.imp fun _ _ hlead => hlead.grows h'.grows) hns
  harmless := by
    rw [h'.harmless, h.harmless, Slot.admits_append, List.forall_mem_append]
    -- What the first part was allowed to occupy is what the second part finds occupied.
    constructor
    · rintro ⟨⟨ha, hms, hxs⟩, hns, hys⟩
      exact ⟨ha, ⟨hms, hns⟩, hxs, (h.accepted hxs).1 ▸ hys⟩
    · rintro ⟨ha, ⟨hms, hns⟩, hxs, hys⟩
      exact ⟨⟨ha, hms, hxs⟩, hns, (h.accepted hxs).1.symm ▸ hys⟩
  accepted := by
    rw [Slot.admits_append]
    rintro ⟨hxs, hys⟩
    obtain ⟨hslots, hinfos⟩ := h.accepted hxs
    obtain ⟨hslots', hinfos'⟩ := h'.accepted (hslots.symm ▸ hys)
    rw [hslots', hslots, hinfos', hinfos]
    simp

section Steps

variable {a : Analysis} {owner : ClassId}

/-- Fields, parameters with a binding and methods are declared alike. Parameters of methods are
checked whether or not the slot is free. -/
theorem declares_info {a' : Analysis} {members : List Member} (x : MemberInfo)
    (howner : owner ∈ a.symbols.classIds) (hk : a.symbols.MembersKnown) (hx : x.owner = owner)
    (hsymbols : a'.symbols = (a.symbols.declareInfo x).1)
    (hreports : a'.diagnostics = a.diagnostics ++ (a.symbols.declareInfo x).2)
    (hclasses : a'.registry.classes = a.registry.classes)
    (hfields : ∀ span ∈ a.registry.fields.map (·.1), span ∈ a'.registry.fields.map (·.1))
    (hfieldsEntered : ∀ f ∈ members.filterMap Member.field?,
      f.span ∈ a'.registry.fields.map (·.1))
    (hmethodsEntered : ∃ entries, a'.registry.methods = entries.reverse ++ a.registry.methods ∧
      List.Forall₂ (fun entry m => Leads a'.symbols entry m owner) entries
        (members.filterMap Member.method?))
    (hdistinct : Harmless x.parameterReports ↔ ∀ m ∈ members, m.ParametersDistinct)
    (hmethods : x.method?.toList = (members.filterMap Member.method?).map (·.info owner)) :
    Declares owner a a' [x.slot] members := by
  subst hx
  refine ⟨?_, hclasses, hfields, hfieldsEntered, hmethodsEntered, ?_, fun hadmits => ?_⟩
  · rw [hsymbols]
    exact SymbolTable.grows_declareInfo a.symbols x
  · rw [hreports, harmless_append]
    rcases SymbolTable.declareInfo_cases a.symbols x with
      ⟨⟨s, hs, hclash⟩, d, hd, heq⟩ | ⟨hfree, heq⟩
    · have hrefused : ¬ Slot.Admits (a.symbols.slots x.owner) [x.slot] := fun h =>
        h.free s hs _ (List.mem_singleton_self _) hclash
      simp [heq, hd, hrefused]
    · have hadmits : Slot.Admits (a.symbols.slots x.owner) [x.slot] :=
        Slot.admits_cons.mpr ⟨hfree, Slot.admits_nil _⟩
      simp only [heq, hdistinct, hadmits, and_true]
  · have hcollision : a.symbols.collision? x = none := by
      rw [← Option.not_isSome_iff_eq_none, SymbolTable.collision?_isSome_iff]
      rintro ⟨s, hs, hclash⟩
      exact hadmits.free s hs _ (List.mem_singleton_self _) hclash
    have hinfos := SymbolTable.memberInfos_declareInfo howner hk hcollision
    rw [hsymbols, SymbolTable.slots_eq_map, SymbolTable.slots_eq_map,
      SymbolTable.methodInfos_eq_filterMap, SymbolTable.methodInfos_eq_filterMap, hinfos,
      List.map_append, List.filterMap_append, ← hmethods]
    refine ⟨rfl, ?_⟩
    cases x <;> rfl

variable (howner : owner ∈ a.symbols.classIds) (hk : a.symbols.MembersKnown)
include howner hk

theorem declares_parameter (p : Parameter) (binding : Binding) :
    Declares owner a (a.declareParameter owner p binding) [.field p.name.text] [] :=
  declares_info (.field (p.fieldInfo binding owner)) howner hk rfl rfl rfl rfl
    (fun _ h => List.mem_cons_of_mem _ h) (by simp) ⟨[], rfl, .nil⟩
    (by simp [MemberInfo.parameterReports]) rfl

theorem declares_field (f : Field) :
    Declares owner a (a.declareMember owner (.field f)) [.field f.name.text] [.field f] :=
  declares_info (.field (f.info owner)) howner hk rfl rfl rfl rfl
    (fun _ h => List.mem_cons_of_mem _ h)
    (by simp [Member.field?, declareMember, Registry.addField]) ⟨[], rfl, .nil⟩
    (by simp [MemberInfo.parameterReports, Member.ParametersDistinct]) rfl

theorem declares_method (m : Method) :
    Declares owner a (a.declareMember owner (.method m)) [(Member.method m).slot] [.method m] := by
  have hlead : Leads (a.declareMember owner (.method m)).symbols
      (m.signature, (a.symbols.declareMethod (m.info owner)).id) m owner := by
    refine ⟨rfl, ?_, ?_⟩
    · simp [declareMember, SymbolTable.id_declareMethod, SymbolTable.methods_declareMethod]
    · simp [declareMember, SymbolTable.methodInfo, SymbolTable.id_declareMethod,
        SymbolTable.methods_declareMethod]
  have hslot : (Member.method m).slot = (MemberInfo.method (m.info owner)).slot :=
    congrArg Slot.method (Method.info_signature m owner).symm
  have hdistinct : Harmless (MemberInfo.method (m.info owner)).parameterReports ↔
      ∀ m' ∈ [Member.method m], m'.ParametersDistinct := by
    rw [MemberInfo.parameterReports, SymbolTable.harmless_checkParameters,
      Method.info_parameters, List.forall_mem_singleton]
    rfl
  rw [hslot]
  exact declares_info (.method (m.info owner)) howner hk rfl rfl rfl rfl (fun _ h => h)
    (by simp [Member.field?]) ⟨[_], rfl, .cons hlead .nil⟩ hdistinct rfl

theorem declares_member (m : Member) : Declares owner a (a.declareMember owner m) [m.slot] [m] := by
  cases m with
  | field f => exact declares_field howner hk f
  | method m => exact declares_method howner hk m

end Steps

/-! ### Types -/

theorem Declares.mem_classIds {owner c : ClassId} {a a' : Analysis} {added : List Slot}
    {members : List Member} (h : Declares owner a a' added members) (hc : c ∈ a.symbols.classIds) :
    c ∈ a'.symbols.classIds := by
  rw [SymbolTable.mem_classIds] at hc ⊢
  rw [h.grows.size]
  exact hc

theorem declares_members {owner : ClassId} (members : List Member) {a : Analysis}
    (howner : owner ∈ a.symbols.classIds) (hk : a.symbols.MembersKnown) :
    Declares owner a (members.foldl (fun a m => a.declareMember owner m) a)
      (members.map Member.slot) members := by
  induction members generalizing a with
  | nil => exact .refl owner a
  | cons m members ih =>
    have hstep := declares_member howner hk m
    exact hstep.trans (ih (hstep.mem_classIds howner) (hstep.grows.known hk))

theorem declares_parameters {owner : ClassId} (ps : List Parameter) {a : Analysis}
    (howner : owner ∈ a.symbols.classIds) (hk : a.symbols.MembersKnown) :
    Declares owner a
      (ps.foldl
        (fun a p =>
          match p.binding with
          | some binding => a.declareParameter owner p binding
          | none => a)
        a)
      (ps.filterMap Parameter.slot?) [] := by
  induction ps generalizing a with
  | nil => exact .refl owner a
  | cons p ps ih =>
    cases hbinding : p.binding with
    | none =>
      simp only [List.foldl_cons, hbinding, List.filterMap_cons, Parameter.slot?, Option.map_none]
      exact ih howner hk
    | some binding =>
      have hstep := declares_parameter howner hk p binding
      simp only [List.foldl_cons, hbinding, List.filterMap_cons, Parameter.slot?, Option.map_some]
      exact hstep.trans (ih (hstep.mem_classIds howner) (hstep.grows.known hk))

/-- The definitions with the identifiers that they get. -/
def numbered (ds : List TypeDef) : List (TypeDef × ClassId) :=
  (ds.zipIdx 1).map fun p => (p.1, ⟨p.2⟩)

theorem numbered_concat (ds : List TypeDef) (d : TypeDef) :
    numbered (ds ++ [d]) = numbered ds ++ [(d, ⟨ds.length + 1⟩)] := by
  simp [numbered, List.zipIdx_append, Nat.add_comm]

theorem numbered_index {ds : List TypeDef} {p : TypeDef × ClassId} (hp : p ∈ numbered ds) :
    0 < p.2.index ∧ p.2.index ≤ ds.length ∧ ds[p.2.index - 1]? = some p.1 := by
  obtain ⟨⟨d, i⟩, hmem, rfl⟩ := List.mem_map.mp hp
  rw [List.mem_zipIdx_iff_le_and_getElem?_sub] at hmem
  obtain ⟨hle, hget⟩ := hmem
  have hlt := (List.getElem?_eq_some_iff.mp hget).1
  refine ⟨hle, ?_, hget⟩
  show i ≤ ds.length
  omega

theorem map_fst_numbered (ds : List TypeDef) : (numbered ds).map (·.1) = ds := by
  simp [numbered, List.map_map, Function.comp_def]

theorem nodup_numbered (ds : List TypeDef) : ((numbered ds).map (·.2)).Nodup := by
  have hindices : ((numbered ds).map (·.2)) = (List.range' 1 ds.length).map ClassId.mk := by
    rw [← List.zipIdx_map_snd 1 ds, numbered, List.map_map, List.map_map]
    rfl
  rw [hindices]
  exact List.Nodup.map (fun _ _ h => ClassId.mk.inj h) List.nodup_range'

/-- What holds when the definitions `ds` were collected. -/
structure Collected (ds : List TypeDef) (a : Analysis) : Prop where
  size : a.symbols.classes.size = ds.length + 1
  names : a.symbols.names = "Any" :: ds.map fun d => d.name.text
  decl : ∀ p ∈ numbered ds, (a.symbols.classInfo p.2).toClassDecl = p.1.decl
  plain : ∀ c, (a.symbols.classInfo c).superclass = none ∧ (a.symbols.classInfo c).traits = []
  known : a.symbols.MembersKnown
  classes : a.registry.classes = ((numbered ds).map fun p => (p.1.signature, p.2)).reverse
  fields : ∀ d ∈ ds, ∀ f ∈ d.fields, f.span ∈ a.registry.fields.map (·.1)
  methods : List.Forall₂ (fun entry (p : Method × ClassId) => Leads a.symbols entry p.1 p.2)
    a.registry.methods.reverse ((numbered ds).flatMap fun p => p.1.methods.map (·, p.2))
  harmless : Harmless a.diagnostics ↔
    ("Any" :: ds.map fun d => d.name.text).Nodup ∧ ∀ d ∈ ds, d.WellDeclared
  accepted : Harmless a.diagnostics → a.symbols.methodInfos .root = [] ∧
    ∀ p ∈ numbered ds, a.symbols.methodInfos p.2 = p.1.methods.map (·.info p.2)

/-- The analysis in which a type is declared and its parameters are checked, but none of its members
is declared. -/
def headed (a : Analysis) (d : TypeDef) : Analysis :=
  (a.declareHead d).1.report (SymbolTable.checkParameters (d.parameters.map (·.name)))

theorem classInfo_headed (a : Analysis) (d : TypeDef) (c : ClassId) :
    (a.headed d).symbols.classInfo c =
      if c = ⟨a.symbols.classes.size⟩ then ⟨d.decl, [], none, []⟩ else a.symbols.classInfo c := by
  simp only [headed, declareHead, SymbolTable.declareClass, SymbolTable.classInfo, report_symbols,
    log_symbols, Array.getElem?_push]
  by_cases hc : c = ⟨a.symbols.classes.size⟩
  · simp [hc]
  · have hindex : ¬ c.index = a.symbols.classes.size := fun h => hc (by rw [← h])
    simp [hc, hindex]

theorem harmless_headed (a : Analysis) (d : TypeDef) :
    Harmless (a.headed d).diagnostics ↔ Harmless a.diagnostics ∧
      d.name.text ∉ a.symbols.names ∧ (d.parameters.map fun p => p.name.text).Nodup := by
  have hwarning : Harmless d.redundantAbstract := by
    unfold TypeDef.redundantAbstract
    split
    · intro w hw
      obtain ⟨span, -, rfl⟩ := List.mem_map.mp hw
      rfl
    · exact harmless_nil
  have hdeclared : Harmless (a.symbols.declareClass d.decl).diagnostics ↔
      d.name.text ∉ a.symbols.names := by
    rw [← SymbolTable.lookup?_eq_none_iff]
    simp only [SymbolTable.declareClass, TypeDef.decl]
    cases a.symbols.lookup? d.name.text with
    | none => simp
    | some earlier =>
      simp only [harmless_singleton, reduceCtorEq, iff_false]
      exact fun h => Bool.noConfusion h
  simp only [headed, declareHead, report, log, harmless_append, hdeclared,
    SymbolTable.harmless_checkParameters, List.map_map, Function.comp_def, and_iff_right hwarning,
    and_assoc]

theorem membersKnown_headed {a : Analysis} (hk : a.symbols.MembersKnown) (d : TypeDef) :
    (a.headed d).symbols.MembersKnown := by
  intro c m hm
  rw [classInfo_headed] at hm
  split at hm
  · cases hm
  · have hknown := hk c m hm
    cases m <;> exact hknown

theorem declares_type {a : Analysis} (hk : a.symbols.MembersKnown) (d : TypeDef) :
    Declares ⟨a.symbols.classes.size⟩ (a.headed d) (a.declareType d)
      ((distinctBy (fun p => p.name.text) [] d.parameters).filterMap Parameter.slot? ++
        d.members.map Member.slot)
      d.members := by
  have howner : (⟨a.symbols.classes.size⟩ : ClassId) ∈ (a.headed d).symbols.classIds := by
    simp [SymbolTable.mem_classIds, headed, declareHead, SymbolTable.declareClass]
  have hheaded := membersKnown_headed hk d
  have hps := declares_parameters (distinctBy (fun p => p.name.text) [] d.parameters) howner hheaded
  exact hps.trans (declares_members d.members (hps.mem_classIds howner) (hps.grows.known hheaded))

theorem harmless_declareType {a : Analysis} (hk : a.symbols.MembersKnown) (d : TypeDef) :
    Harmless (a.declareType d).diagnostics ↔
      Harmless a.diagnostics ∧ d.name.text ∉ a.symbols.names ∧ d.WellDeclared := by
  have hslots : (a.headed d).symbols.slots ⟨a.symbols.classes.size⟩ = [] := by
    rw [SymbolTable.slots, classInfo_headed, if_pos rfl]
    rfl
  rw [(declares_type hk d).harmless, harmless_headed, hslots]
  constructor
  -- Only the first parameter of a name becomes a field, which matters to no type in order.
  · rintro ⟨⟨ha, hname, hps⟩, hmethods, hadmits⟩
    rw [distinctBy_eq_self hps (by simp)] at hadmits
    exact ⟨ha, hname, hps, hmethods, Slot.admits_of_free.mp hadmits⟩
  · rintro ⟨ha, hname, hps, hmethods, hslots⟩
    rw [distinctBy_eq_self hps (by simp)]
    exact ⟨⟨ha, hname, hps⟩, hmethods, Slot.admits_of_free.mpr hslots⟩

namespace Collected

variable {ds : List TypeDef} {a : Analysis}

theorem initial : Collected [] Analysis.initial where
  size := rfl
  names := rfl
  decl := by simp [numbered]
  plain := by
    rintro ⟨i⟩
    cases i <;> exact ⟨rfl, rfl⟩
  known := by
    rintro ⟨i⟩ m hm
    cases i <;> cases hm
  classes := rfl
  fields := by simp
  methods := .nil
  harmless := by simp [Analysis.initial]
  accepted := fun _ => ⟨rfl, by simp [numbered]⟩

theorem classInfo_declareType (h : Collected ds a) (d : TypeDef) {c : ClassId}
    (hc : c.index ≤ ds.length) : (a.declareType d).symbols.classInfo c = a.symbols.classInfo c := by
  have hne : c ≠ ⟨a.symbols.classes.size⟩ := by
    rintro rfl
    rw [h.size] at hc
    exact absurd hc (by simp)
  rw [(declares_type h.known d).grows.others c hne, classInfo_headed, if_neg hne]

theorem methodInfos_declareType (h : Collected ds a) (d : TypeDef) {c : ClassId}
    (hc : c.index ≤ ds.length) :
    (a.declareType d).symbols.methodInfos c = a.symbols.methodInfos c := by
  rw [SymbolTable.methodInfos, SymbolTable.methodInfos, h.classInfo_declareType d hc]
  refine List.map_congr_left fun id hid => ?_
  exact SymbolTable.methodInfo_of_extension (t := a.symbols) (declares_type h.known d).grows.methods
    (h.known c (.method id) (SymbolTable.mem_methods.mp hid))

theorem declareType (h : Collected ds a) (d : TypeDef) :
    Collected (ds ++ [d]) (a.declareType d) := by
  have hstep := declares_type h.known d
  have hid : (⟨a.symbols.classes.size⟩ : ClassId) = ⟨ds.length + 1⟩ := by rw [h.size]
  have hharmless := harmless_declareType h.known d
  have hheadSize : (a.headed d).symbols.classes.size = ds.length + 2 := by
    simp [headed, declareHead, SymbolTable.declareClass, h.size]
  refine
    { size := ?size, names := ?names, decl := ?decl, plain := ?plain, known := ?known,
      classes := ?classes, fields := ?fields, methods := ?methods, harmless := ?harmless,
      accepted := ?accepted }
  case size =>
    rw [hstep.grows.size, hheadSize, List.length_append, List.length_singleton]
  case names =>
    have hnames : (a.headed d).symbols.names = a.symbols.names ++ [d.name.text] := by
      simp [headed, declareHead, SymbolTable.declareClass, SymbolTable.names, TypeDef.decl]
    rw [hstep.grows.names, hnames, h.names, List.map_append]
    rfl
  case decl =>
    intro p hp
    rw [numbered_concat] at hp
    rcases List.mem_append.mp hp with hp | hp
    · rw [h.classInfo_declareType d (numbered_index hp).2.1]
      exact h.decl p hp
    · rw [List.mem_singleton.mp hp, hstep.grows.head, classInfo_headed, if_pos hid.symm]
  case plain =>
    intro c
    rw [hstep.grows.head, classInfo_headed]
    split
    · exact ⟨rfl, rfl⟩
    · exact h.plain c
  case known =>
    exact hstep.grows.known (membersKnown_headed h.known d)
  case classes =>
    rw [hstep.classes, numbered_concat, List.map_append, List.reverse_append, ← h.classes, ← hid]
    rfl
  case fields =>
    intro d' hd' f hf
    rcases List.mem_append.mp hd' with hd' | hd'
    · exact hstep.fields _ (h.fields d' hd' f hf)
    · rw [List.mem_singleton.mp hd'] at hf
      exact hstep.fieldsEntered f hf
  case methods =>
    obtain ⟨entries, hentries, hleads⟩ := hstep.methodsEntered
    rw [hentries, List.reverse_append, List.reverse_reverse, numbered_concat, List.flatMap_append]
    refine List.rel_append ?_ ?_
    · exact h.methods.imp fun _ _ hlead => Leads.grows (t := (a.headed d).symbols) hlead hstep.grows
    · rw [List.flatMap_singleton, ← hid]
      exact List.forall₂_map_right_iff.mpr hleads
  case harmless =>
    rw [hharmless, h.harmless, h.names, List.map_append, ← List.cons_append, List.map_singleton,
      ← List.concat_eq_append, List.nodup_concat, List.forall_mem_append,
      List.forall_mem_singleton]
    tauto
  case accepted =>
    intro hall
    obtain ⟨ha, -, hdecl⟩ := hharmless.mp hall
    obtain ⟨hroot, hold⟩ := h.accepted ha
    refine ⟨(h.methodInfos_declareType d (Nat.zero_le _)).trans hroot, fun p hp => ?_⟩
    rw [numbered_concat] at hp
    rcases List.mem_append.mp hp with hp | hp
    · rw [h.methodInfos_declareType d (numbered_index hp).2.1]
      exact hold p hp
    · rw [List.mem_singleton.mp hp, ← hid]
      have hadmits := (hstep.harmless.mp hall).2.2
      rw [(hstep.accepted hadmits).2, SymbolTable.methodInfos, classInfo_headed, if_pos rfl]
      rfl

theorem foldl (h : Collected ds a) (rest : List TypeDef) :
    Collected (ds ++ rest) (rest.foldl Analysis.declareType a) := by
  induction rest generalizing ds a with
  | nil => simpa using h
  | cons d rest ih => simpa using ih (h.declareType d)

theorem classInfo_root_foldl (h : Collected ds a) (rest : List TypeDef) :
    (rest.foldl Analysis.declareType a).symbols.classInfo .root = a.symbols.classInfo .root := by
  induction rest generalizing ds a with
  | nil => rfl
  | cons d rest ih =>
    exact (ih (h.declareType d)).trans (h.classInfo_declareType d (Nat.zero_le _))

end Collected

theorem collected (units : List Program) :
    Collected (units.flatMap (·.definitions)) (Analysis.initial.collectDeclarations units) := by
  have h := Collected.initial.foldl (units.flatMap (·.definitions))
  exact ⟨h.size, h.names, h.decl, h.plain, h.known, h.classes, h.fields, h.methods, h.harmless,
    h.accepted⟩

/-! ### Looking definitions up -/

/-- The definition for which a place is known: the last one that stands where `p` does. -/
def occupant (ds : List TypeDef) (p : TypeDef × ClassId) : TypeDef × ClassId :=
  latest (fun q => q.1.signature) (numbered ds) p

def ownedMethods (ds : List TypeDef) : List (Method × TypeDef × ClassId) :=
  (numbered ds).flatMap fun p => p.1.methods.map (·, p)

/-- The method for which a place is known. -/
def methodOccupant (ds : List TypeDef) (x : Method × TypeDef × ClassId) :
    Method × TypeDef × ClassId :=
  latest (fun y => y.1.signature) (ownedMethods ds) x

section Occupants

variable {ds : List TypeDef} {p : TypeDef × ClassId}

theorem occupant_mem (hp : p ∈ numbered ds) : occupant ds p ∈ numbered ds := latest_mem hp

theorem occupant_eq_self (hdistinct : (ds.map (·.signature)).Nodup) (hp : p ∈ numbered ds) :
    occupant ds p = p := by
  refine latest_eq_self ?_ hp
  rwa [← map_fst_numbered ds, List.map_map] at hdistinct

theorem mem_ownedMethods (hp : p ∈ numbered ds) {m : Method} (hm : m ∈ p.1.methods) :
    (m, p) ∈ ownedMethods ds :=
  List.mem_flatMap.mpr ⟨p, hp, List.mem_map_of_mem hm⟩

theorem owner_mem_numbered {x : Method × TypeDef × ClassId} (hx : x ∈ ownedMethods ds) :
    x.2 ∈ numbered ds := by
  obtain ⟨p, hp, hx⟩ := List.mem_flatMap.mp hx
  obtain ⟨m, -, rfl⟩ := List.mem_map.mp hx
  exact hp

theorem methodOccupant_mem {x : Method × TypeDef × ClassId} (hx : x ∈ ownedMethods ds) :
    methodOccupant ds x ∈ ownedMethods ds :=
  latest_mem hx

theorem methodOccupant_eq_self
    (hdistinct : ((ds.flatMap (·.methods)).map (·.signature)).Nodup)
    {x : Method × TypeDef × ClassId} (hx : x ∈ ownedMethods ds) : methodOccupant ds x = x := by
  refine latest_eq_self ?_ hx
  rw [← map_fst_numbered ds] at hdistinct
  simpa [ownedMethods, List.map_flatMap, List.flatMap_map, Function.comp_def] using hdistinct

end Occupants

namespace Collected

variable {ds : List TypeDef} {a : Analysis}

theorem methods_keys (h : Collected ds a) :
    a.registry.methods.reverse.map (·.1) = (ds.flatMap (·.methods)).map (·.signature) := by
  have hkeys : List.Forall₂ (· = ·) (a.registry.methods.reverse.map (·.1))
      (((numbered ds).flatMap fun p => p.1.methods.map (·, p.2)).map fun p => p.1.signature) := by
    rw [List.forall₂_map_left_iff, List.forall₂_map_right_iff]
    exact h.methods.imp fun _ _ hlead => hlead.1
  rw [List.forall₂_eq_eq_eq] at hkeys
  rw [hkeys]
  nth_rewrite 2 [← map_fst_numbered ds]
  simp [List.map_flatMap, List.flatMap_map, Function.comp_def]

theorem classOf_occupant (h : Collected ds a) {p : TypeDef × ClassId} (hp : p ∈ numbered ds) :
    a.registry.classOf p.1 = .ok (occupant ds p).2 := by
  have hlookup : a.registry.classes.lookup p.1.signature = some (occupant ds p).2 := by
    rw [h.classes]
    exact lookup_reverse_map (k := fun q : TypeDef × ClassId => q.1.signature) (·.2) hp
  rw [Registry.classOf, hlookup]

theorem classOf (h : Collected ds a) (hdistinct : (ds.map (·.signature)).Nodup)
    {p : TypeDef × ClassId} (hp : p ∈ numbered ds) : a.registry.classOf p.1 = .ok p.2 := by
  rw [h.classOf_occupant hp, occupant_eq_self hdistinct hp]

theorem methodOf_occupant (h : Collected ds a) {x : Method × TypeDef × ClassId}
    (hx : x ∈ ownedMethods ds) : ∃ id, a.registry.methodOf x.1 = .ok id ∧
      a.symbols.methodInfo id = (methodOccupant ds x).1.info (methodOccupant ds x).2.2 := by
  have hmethods : List.Forall₂ (fun entry (x : Method × TypeDef × ClassId) =>
      Leads a.symbols entry x.1 x.2.2) a.registry.methods.reverse (ownedMethods ds) := by
    have hpairs : ((numbered ds).flatMap fun p => p.1.methods.map (·, p.2)) =
        (ownedMethods ds).map fun x => (x.1, x.2.2) := by
      simp [ownedMethods, List.map_flatMap, Function.comp_def]
    exact List.forall₂_map_right_iff.mp (hpairs ▸ h.methods)
  -- Each method is paired with its entry, so that one search finds both.
  let pairs := a.registry.methods.reverse.zip (ownedMethods ds)
  have hlength := hmethods.length_eq
  have hfst : pairs.map (·.1) = a.registry.methods.reverse :=
    List.map_fst_zip (Nat.le_of_eq hlength)
  have hsnd : pairs.map (·.2) = ownedMethods ds := List.map_snd_zip (Nat.le_of_eq hlength.symm)
  have hleads : ∀ z ∈ pairs, Leads a.symbols z.1 z.2.1 z.2.2.2 :=
    fun z hz => (List.forall₂_iff_zip.mp hmethods).2 hz
  obtain ⟨z, hz, rfl⟩ : ∃ z ∈ pairs, z.2 = x := List.mem_map.mp (hsnd ▸ hx)
  have hkey {w} (hw : w ∈ pairs) : w.1.1 = w.2.1.signature := (hleads w hw).1
  have hlatest : methodOccupant ds z.2 = (latest (fun w => w.1.1) pairs z).2 := by
    have hsame : ∀ w ∈ pairs, w.2.1.signature = z.2.1.signature ↔ w.1.1 = z.1.1 := by
      intro w hw
      rw [hkey hw, hkey hz]
    rw [methodOccupant, ← hsnd]
    exact latest_map (k := fun w => w.1.1) (l := fun y => y.1.signature) (·.2) hz hsame
  have hlookup : a.registry.methods.lookup z.2.1.signature =
      some (latest (fun w => w.1.1) pairs z).1.2 := by
    have hfound := lookup_reverse_map (k := fun w => w.1.1) (fun w => w.1.2) hz
    rwa [show pairs.map (fun w => (w.1.1, w.1.2)) = a.registry.methods.reverse from hfst,
      List.reverse_reverse, hkey hz] at hfound
  refine ⟨_, by rw [Registry.methodOf, hlookup], ?_⟩
  rw [hlatest]
  exact (hleads _ (latest_mem hz)).2.2

theorem methodOf (h : Collected ds a)
    (hdistinct : ((ds.flatMap (·.methods)).map (·.signature)).Nodup) {p : TypeDef × ClassId}
    (hp : p ∈ numbered ds) {m : Method} (hm : m ∈ p.1.methods) :
    ∃ id, a.registry.methodOf m = .ok id ∧ a.symbols.methodInfo id = m.info p.2 := by
  have hx := mem_ownedMethods hp hm
  obtain ⟨id, hid, hinfo⟩ := h.methodOf_occupant hx
  rw [methodOccupant_eq_self hdistinct hx] at hinfo
  exact ⟨id, hid, hinfo⟩

theorem fieldOf (h : Collected ds a) {d : TypeDef} (hd : d ∈ ds) {f : Field} (hf : f ∈ d.fields) :
    ∃ id, a.registry.fieldOf f = .ok id := by
  obtain ⟨id, hid⟩ := exists_lookup_of_mem (h.fields d hd f hf)
  exact ⟨id, by rw [Registry.fieldOf, hid]⟩

end Collected

end Analysis

end Mixin
