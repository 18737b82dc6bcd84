import Mixin.Proofs.Analysis.Registration
import Mixin.Proofs.Order
import Mixin.Proofs.Token.Pieces

/-!
# Names in listings

The analyses know types and members by identifiers. A listing finds the types again by their names,
and refers by names to those it creates and to objects. It is written only where no two types share
a name, and there names and identifiers agree (`compile_agrees_on_names`): each definition is listed
as what it was declared as, and no two types are referred to by the same text.
-/

namespace Mixin

/-! ### What is found -/

namespace Analysis

/-- The identifier is that of the definition, and what is known under it is what the definition
says. -/
structure Represents (a : Analysis) (d : TypeDef) (id : ClassId) : Prop where
  registered : a.registry.classOf d = .ok id
  declared : (a.symbols.classInfo id).toClassDecl = d.decl
  members : (a.symbols.classInfo id).members.map some = d.ownMembers.map a.registry.memberOf?
  infos : a.symbols.memberInfos id = d.ownMembers.map (·.info id)

/-- What a listing of the program finds by names is what the analyses know by identifiers. -/
structure AgreesOnNames (a : Analysis) (p : Program) : Prop where
  /-- A definition is found by its name, and its block is that of what is found. -/
  found : ∀ d ∈ p.definitions, ∃ id, a.symbols.lookup? d.name.text = some id ∧ a.Represents d id ∧
    ∀ library, TypeBlock.ofTypeDef a.symbols p library d =
      ⟨TypeBlock.headingOf a.symbols library (a.symbols.classInfo id), TypeBlock.fieldLines d,
        TypeBlock.routinesOf a.symbols (a.symbols.surroundings p library id) d
          (a.symbols.classInfo id)⟩
  /-- No other definition of the program is found so. -/
  distinct : ∀ d ∈ p.definitions, ∀ d' ∈ p.definitions,
    a.symbols.lookup? d.name.text = a.symbols.lookup? d'.name.text → d = d'
  /-- Instructions refer to a type that they create like all else does. -/
  created : ∀ name id, a.symbols.lookup? name = some id → ∀ library owner,
    (a.symbols.surroundings p library owner).typeReference name =
      a.symbols.qualifiedName library id
  /-- Objects are loaded by the names of the objects in the program. -/
  objects : ∀ library owner name, name ∈ (a.symbols.surroundings p library owner).objects ↔
    ∃ id span, a.symbols.lookup? name = some id ∧ (a.symbols.classInfo id).kind = .object ∧
      (a.symbols.classInfo id).site = some span ∧ span.file = .user
  /-- By the name of a definition instructions refer to the definition, and by no other. -/
  own : ∀ d ∈ p.definitions, ∀ library owner name,
    (a.symbols.surroundings p library owner).typeReference name = d.name.text ↔
      name = d.name.text
  /-- A definition is not referred to as a type of the runtime library. -/
  foreign : ∀ d ∈ p.definitions, d.name.text ∉ a.symbols.runtimeTypes ∧
    ∀ library name, d.name.text ≠ inLibrary library name
  /-- No two types are referred to by the same text. -/
  apart : ∀ library, ∀ id ∈ a.symbols.classIds, ∀ id' ∈ a.symbols.classIds,
    a.symbols.qualifiedName library id = a.symbols.qualifiedName library id' → id = id'

end Analysis

/-! ### Texts -/

theorem inLibrary_inj {library name name' : String}
    (h : inLibrary library name = inLibrary library name') : name = name' := by
  simpa [inLibrary] using h

theorem ne_inLibrary {text : String} {c : Char} {cs : List Char} (htext : text.toList = c :: cs)
    (hc : Text.isWordStart c = true) (library name : String) : text ≠ inLibrary library name := by
  rintro rfl
  rw [inLibrary, String.toList_append, String.toList_append, String.toList_append] at htext
  obtain rfl : '[' = c := (List.cons.inj htext).1
  exact absurd hc (by decide)

theorem Program.name_ne_inLibrary {file : SourceFile} {text : String} {p : Program}
    (h : ofText file text = .ok p) {d : TypeDef} (hd : d ∈ p.definitions) (library name : String) :
    d.name.text ≠ inLibrary library name := by
  obtain ⟨ts, rest, htokens, hspells⟩ := spelled_ofText h
  obtain ⟨us, hus, hdef⟩ := hspells.exists_typeDef d hd
  obtain ⟨t, ht, hkind, hname⟩ := hdef.exists_name
  have hmem : t ∈ (TokenStream.ofText file text).tokens :=
    htokens ▸ List.mem_append_left _ (hus.subset ht)
  obtain ⟨c, cs, hlexeme, hc⟩ := TokenStream.exists_head_of_identifier hmem hkind
  rw [hname]
  exact ne_inLibrary hlexeme hc library name

/-! ### Tables in which names differ -/

namespace SymbolTable

variable {t : SymbolTable} {name : String} {id : ClassId}

theorem mem_runtimeTypes_iff (hnames : t.names.Nodup) :
    name ∈ t.runtimeTypes ↔
      ∃ id, t.lookup? name = some id ∧ (t.classInfo id).isRuntime = true := by
  simp only [runtimeTypes, toList_classes, List.mem_map, List.mem_filter,
    lookup?_eq_some_iff hnames]
  constructor
  · rintro ⟨c, ⟨⟨id, hid, rfl⟩, hruntime⟩, hname⟩
    exact ⟨id, ⟨hid, hname⟩, hruntime⟩
  · rintro ⟨id, ⟨hid, hname⟩, hruntime⟩
    exact ⟨_, ⟨⟨id, hid, rfl⟩, hruntime⟩, hname⟩

theorem mem_runtimeTypes_of_lookup? (hnames : t.names.Nodup) (h : t.lookup? name = some id) :
    name ∈ t.runtimeTypes ↔ (t.classInfo id).isRuntime = true := by
  rw [mem_runtimeTypes_iff hnames, h]
  simp

theorem typeReference_surroundings (t : SymbolTable) (p : Program) (library name : String)
    (owner : ClassId) : (t.surroundings p library owner).typeReference name =
      if name ∈ t.runtimeTypes then inLibrary library name else name := rfl

theorem typeReference_eq_qualifiedName (hnames : t.names.Nodup) (h : t.lookup? name = some id)
    (p : Program) (library : String) (owner : ClassId) :
    (t.surroundings p library owner).typeReference name = t.qualifiedName library id := by
  have hname := ((lookup?_eq_some_iff hnames).mp h).2
  simp only [typeReference_surroundings, qualifiedName, hname, mem_runtimeTypes_of_lookup? hnames h]

theorem qualifiedName_inj (hnames : t.names.Nodup)
    (hplain : ∀ id ∈ t.classIds, (t.classInfo id).isRuntime = false →
      ∀ library name, (t.classInfo id).name ≠ inLibrary library name)
    {library : String} {id' : ClassId} (hid : id ∈ t.classIds) (hid' : id' ∈ t.classIds)
    (h : t.qualifiedName library id = t.qualifiedName library id') : id = id' := by
  have hinj (heq : (t.classInfo id).name = (t.classInfo id').name) : id = id' := by
    have hfound := (lookup?_eq_some_iff hnames).mpr ⟨hid, heq⟩
    exact Option.some.inj (hfound.symm.trans ((lookup?_eq_some_iff hnames).mpr ⟨hid', rfl⟩))
  -- Two names of the library differ behind the same beginning; a plain name has no such beginning.
  unfold qualifiedName at h
  cases hruntime : (t.classInfo id).isRuntime <;> cases hruntime' : (t.classInfo id').isRuntime <;>
    simp only [hruntime, hruntime', if_true, Bool.false_eq_true, if_false] at h
  · exact hinj h
  · exact absurd h (hplain id hid hruntime _ _)
  · exact absurd h.symm (hplain id' hid' hruntime' _ _)
  · exact hinj (inLibrary_inj h)

end SymbolTable

/-! ### Definitions without errors -/

namespace Analysis

/-- What is known of the types is what the definitions say. -/
structure Represented (ds : List TypeDef) (a : Analysis) : Prop where
  names : a.symbols.names = "Any" :: ds.map fun d => d.name.text
  root : (a.symbols.classInfo .root).toClassDecl = SymbolTable.rootDecl
  types : ∀ p ∈ numbered ds, a.Represents p.1 p.2

end Analysis

open Analysis in
theorem represented_of_wellFormed {texts : List (SourceFile × String)} {units : List Program}
    {a : Analysis} (hfiles : (texts.map (·.1)).Nodup) (hparsed : parseAll texts = .ok units)
    (ha : analyze units = .ok a) (hw : WellFormed (units.flatMap (·.definitions))) :
    Represented (units.flatMap (·.definitions)) a := by
  have htypes := nodup_signatures hfiles hparsed
  have hmethods := nodup_methodSignatures hfiles hparsed
  have hc := Analysis.collected units
  obtain ⟨log, h⟩ := exists_journal units
  obtain ⟨cycles, reports, hu⟩ := untangled_resolvedUnits htypes
  obtain ⟨b, hb, hsymbols, -⟩ := analyze_reports htypes hmethods
  obtain rfl := Except.ok.inj (ha.symm.trans hb)
  have hregistry := registry_of_analyze ha
  have hregistered := h.registered hc htypes hmethods (nodup_fieldSpans hfiles hparsed)
  refine ⟨?_, ?_, fun p hp => ?_⟩
  · rw [hsymbols, Analysis.names_final hu, hc.names]
  · obtain ⟨superclass, traits, hinfo⟩ := Analysis.frame_final hu .root
    rw [hsymbols, hinfo, classInfo_root]
  · obtain ⟨hmembers, hinfos⟩ :=
      members_of_wellDeclared hregistered h.run hp (hw.declared _ (mem_of_numbered hp))
    obtain ⟨superclass, traits, hinfo⟩ := Analysis.frame_final hu p.2
    refine ⟨hregistry ▸ hc.classOf htypes hp, hsymbols ▸ hc.decl_final hu p hp, ?_, ?_⟩
    · rw [hregistry, hsymbols, hinfo]
      exact hmembers
    · rw [hsymbols, Analysis.memberInfos_final hu]
      exact hinfos

namespace Analysis

section Represented

variable {ds : List TypeDef} {a : Analysis} {d : TypeDef} {id : ClassId} {name : String}

theorem Represents.isRuntime (h : a.Represents d id) :
    (a.symbols.classInfo id).isRuntime = (d.name.span.file == .prelude) := by
  have hsite : (a.symbols.classInfo id).site = some d.name.span := by rw [h.declared]; rfl
  rw [ClassInfo.isRuntime, hsite]

theorem Represents.name_eq (h : a.Represents d id) :
    (a.symbols.classInfo id).name = d.name.text := by
  rw [h.declared]
  rfl

theorem Represented.cases (h : Represented ds a) (hid : id ∈ a.symbols.classIds) :
    id = .root ∨ ∃ d ∈ ds, a.Represents d id := by
  have hsize : a.symbols.classes.size = ds.length + 1 := by
    rw [← SymbolTable.length_names, h.names, List.length_cons, List.length_map]
  rcases cases_id hsize id with hroot | ⟨p, hp, rfl⟩ | hnot
  · exact Or.inl hroot
  · exact Or.inr ⟨p.1, mem_of_numbered hp, h.types p hp⟩
  · exact absurd hid hnot

variable (hnames : a.symbols.names.Nodup)
include hnames

theorem Represented.exists_lookup? (h : Represented ds a) (hd : d ∈ ds) :
    ∃ id, a.symbols.lookup? d.name.text = some id ∧ a.Represents d id := by
  obtain ⟨id, hid⟩ := exists_numbered hd
  have hrepresents := h.types _ hid
  refine ⟨id, (SymbolTable.lookup?_eq_some_iff hnames).mpr ⟨?_, hrepresents.name_eq⟩, hrepresents⟩
  have hindex := (numbered_index hid).2.1
  rw [SymbolTable.mem_classIds, ← SymbolTable.length_names, h.names, List.length_cons,
    List.length_map]
  exact Nat.lt_succ_of_le hindex

theorem Represented.exists_of_lookup? (h : Represented ds a)
    (hid : a.symbols.lookup? name = some id) (hsite : (a.symbols.classInfo id).site ≠ none) :
    ∃ d ∈ ds, d.name.text = name ∧ a.Represents d id := by
  obtain ⟨hmem, hname⟩ := (SymbolTable.lookup?_eq_some_iff hnames).mp hid
  rcases h.cases hmem with rfl | ⟨d, hd, hrepresents⟩
  · exact absurd (by rw [h.root]; rfl) hsite
  · exact ⟨d, hd, hrepresents.name_eq.symm.trans hname, hrepresents⟩

end Represented

/-- What the definitions of a program, with others before them, have to be like for a listing. -/
structure Listable (before : List TypeDef) (p : Program) : Prop where
  names : ("Any" :: (before ++ p.definitions).map fun d => d.name.text).Nodup
  library : ∀ d ∈ before, d.name.span.file = .prelude
  user : ∀ d ∈ p.definitions, d.name.span.file = .user
  plain : ∀ d ∈ p.definitions, ∀ library name, d.name.text ≠ inLibrary library name

section Listable

variable {before : List TypeDef} {p : Program} {a : Analysis} {d : TypeDef} {id : ClassId}
  (hl : Listable before p)
include hl

theorem Listable.isRuntime_iff (hd : d ∈ before ++ p.definitions) (h : a.Represents d id) :
    (a.symbols.classInfo id).isRuntime = false ↔ d ∈ p.definitions := by
  rw [h.isRuntime]
  constructor
  · intro huser
    refine (List.mem_append.mp hd).resolve_left fun hbefore => ?_
    rw [hl.library d hbefore] at huser
    cases huser
  · intro hd
    rw [hl.user d hd]
    rfl

variable (h : Represented (before ++ p.definitions) a)
include h

theorem Listable.notMem_runtimeTypes (hd : d ∈ p.definitions) :
    d.name.text ∉ a.symbols.runtimeTypes := by
  have hnames : a.symbols.names.Nodup := h.names ▸ hl.names
  have hmem := List.mem_append_right before hd
  obtain ⟨id, hid, hrepresents⟩ := h.exists_lookup? hnames hmem
  rw [SymbolTable.mem_runtimeTypes_of_lookup? hnames hid, Bool.not_eq_true]
  exact (hl.isRuntime_iff hmem hrepresents).mpr hd

theorem Listable.objects_iff (library name : String) (owner : ClassId) :
    name ∈ (a.symbols.surroundings p library owner).objects ↔
      ∃ id span, a.symbols.lookup? name = some id ∧ (a.symbols.classInfo id).kind = .object ∧
        (a.symbols.classInfo id).site = some span ∧ span.file = .user := by
  have hnames : a.symbols.names.Nodup := h.names ▸ hl.names
  simp only [SymbolTable.surroundings, List.mem_map, List.mem_filter, beq_iff_eq]
  constructor
  · rintro ⟨d, ⟨hd, hkind⟩, rfl⟩
    obtain ⟨id, hid, hrepresents⟩ := h.exists_lookup? hnames (List.mem_append_right before hd)
    refine ⟨id, d.name.span, hid, ?_, ?_, hl.user d hd⟩
    · rw [hrepresents.declared]
      exact hkind
    · rw [hrepresents.declared]
      rfl
  · rintro ⟨id, span, hid, hkind, hsite, hfile⟩
    obtain ⟨d, hd, rfl, hrepresents⟩ := h.exists_of_lookup? hnames hid (by simp [hsite])
    have hruntime : (a.symbols.classInfo id).isRuntime = false := by
      rw [ClassInfo.isRuntime, hsite]
      simp [hfile]
    refine ⟨d, ⟨(hl.isRuntime_iff hd hrepresents).mp hruntime, ?_⟩, rfl⟩
    rw [hrepresents.declared] at hkind
    exact hkind

theorem Listable.typeReference_eq_iff (hd : d ∈ p.definitions) (library name : String)
    (owner : ClassId) :
    (a.symbols.surroundings p library owner).typeReference name = d.name.text ↔
      name = d.name.text := by
  rw [SymbolTable.typeReference_surroundings]
  by_cases hruntime : name ∈ a.symbols.runtimeTypes
  · have hne : name ≠ d.name.text := by
      rintro rfl
      exact hl.notMem_runtimeTypes h hd hruntime
    rw [if_pos hruntime]
    exact iff_of_false (hl.plain d hd library name).symm hne
  · rw [if_neg hruntime]

theorem Listable.agreesOnNames : a.AgreesOnNames p := by
  have hnames : a.symbols.names.Nodup := h.names ▸ hl.names
  refine ⟨?_, ?_, ?_, fun library owner name => hl.objects_iff h library name owner, ?_, ?_, ?_⟩
  · intro d hd
    obtain ⟨id, hid, hrepresents⟩ := h.exists_lookup? hnames (List.mem_append_right before hd)
    refine ⟨id, hid, hrepresents, fun library => ?_⟩
    rw [TypeBlock.ofTypeDef, hid]
    rfl
  · intro d hd d' hd' heq
    obtain ⟨id, hid, hrepresents⟩ := h.exists_lookup? hnames (List.mem_append_right before hd)
    have hname := ((SymbolTable.lookup?_eq_some_iff hnames).mp (heq.symm.trans hid)).2
    rw [hrepresents.name_eq] at hname
    have hdistinct := (List.nodup_cons.mp hl.names).2
    rw [List.map_append] at hdistinct
    exact List.inj_on_of_nodup_map hdistinct.of_append_right hd hd' hname
  · intro name id hid library owner
    exact SymbolTable.typeReference_eq_qualifiedName hnames hid p library owner
  · exact fun d hd library owner name => hl.typeReference_eq_iff h hd library name owner
  · exact fun d hd => ⟨hl.notMem_runtimeTypes h hd, hl.plain d hd⟩
  · intro library id hid id' hid' heq
    refine SymbolTable.qualifiedName_inj hnames (fun id hid hruntime => ?_) hid hid' heq
    rcases h.cases hid with rfl | ⟨d, hd, hrepresents⟩
    · rw [ClassInfo.isRuntime, h.root] at hruntime
      cases hruntime
    · rw [hrepresents.name_eq]
      exact hl.plain d ((hl.isRuntime_iff hd hrepresents).mp hruntime)

end Listable

end Analysis

/-! ### Compilations -/

theorem exists_of_mem_preludeUnits {noPrelude : Bool} {d : TypeDef}
    (hd : d ∈ (preludeUnits noPrelude).flatMap (·.definitions)) :
    ∃ p, Program.ofText .prelude preludeText = .ok p ∧ d ∈ p.definitions := by
  cases noPrelude with
  | true => cases hd
  | false =>
    obtain ⟨prelude, hprelude⟩ := exists_program_of_toBool prelude_toBool
    rw [preludeUnits, hprelude] at hd
    exact ⟨prelude, hprelude, by simpa [Except.toOption] using hd⟩

theorem exists_of_generated {options : CompilerOptions} {source : String} {c : Compilation}
    (hc : compile options source = .ok c) (hgenerated : c.stage = .generated) :
    ∃ p a, Program.ofText .user source = .ok p ∧
      analyze (preludeUnits options.noPrelude ++ [p]) = .ok a ∧
      c = .finished options p a.symbols a.diagnostics (startEvents ++ a.events) ∧
      WellFormed ((preludeUnits options.noPrelude ++ [p]).flatMap (·.definitions)) := by
  cases hparsed : parseAll (sourceTexts options.noPrelude source) with
  | error errors =>
    rw [compile_eq_of_error hparsed] at hc
    obtain rfl := Except.ok.inj hc
    cases hgenerated
  | ok units =>
    have hmem : (SourceFile.user, source) ∈ sourceTexts options.noPrelude source := by
      simp [sourceTexts]
    obtain ⟨p, -, hp⟩ :=
      exists_mem_of_forall₂ (List.Forall₂.flip (forall₂_of_parseAll hparsed)) hmem
    obtain rfl := Except.ok.inj (hparsed.symm.trans (parseAll_sourceTexts options.noPrelude hp))
    obtain ⟨a, ha, hharmless⟩ :=
      harmless_analyze_iff (nodup_files_sourceTexts options.noPrelude source) hparsed
    obtain rfl := Except.ok.inj (hc.symm.trans (compile_eq_of_ok hparsed ha))
    -- The stage tells which end the compilation came to.
    split at hgenerated
    next => cases hgenerated
    next herrors =>
      refine ⟨p, a, hp, ha, ?_, ?_⟩
      · rw [if_neg herrors, List.getLast?_concat]
        rfl
      · exact hharmless.mp (any_isError_eq_false_iff.mp (Bool.not_eq_true _ ▸ herrors))

/-- When a listing is written, what it finds by names is what the analyses know by identifiers. -/
theorem compile_agrees_on_names {options : CompilerOptions} {source : String} {c : Compilation}
    (hc : compile options source = .ok c) (hgenerated : c.stage = .generated) :
    ∃ p a, Program.ofText .user source = .ok p ∧
      analyze (preludeUnits options.noPrelude ++ [p]) = .ok a ∧
      c = .finished options p a.symbols a.diagnostics (startEvents ++ a.events) ∧
      a.AgreesOnNames p := by
  obtain ⟨p, a, hp, ha, hfinished, hw⟩ := exists_of_generated hc hgenerated
  refine ⟨p, a, hp, ha, hfinished, ?_⟩
  have hrepresented := represented_of_wellFormed
    (nodup_files_sourceTexts options.noPrelude source) (parseAll_sourceTexts _ hp) ha hw
  have hnames := hw.names
  rw [List.flatMap_append, List.flatMap_singleton] at hrepresented hnames
  refine Analysis.Listable.agreesOnNames ⟨hnames, fun d hd => ?_, ?_, fun d hd => ?_⟩ hrepresented
  · obtain ⟨prelude, hprelude, hd⟩ := exists_of_mem_preludeUnits hd
    exact Program.file_of_ofText hprelude d hd
  · exact Program.file_of_ofText hp
  · exact Program.name_ne_inLibrary hp hd

/-- A class with some parameters that are fields, which creates a type of the prelude and one of the
program, a type named like one of the prelude but for its case, and an object. -/
theorem compile_agrees_on_names_created :
    let source := "class A(val x: Int, y: Int, var z: A) \x7b\n" ++
      "  val a: A = new A(1, 2, this); def f: Int = new Int; def f(b: A): A = O.make\n" ++
      "\x7d\nabstract class int \x7b def f: Int \x7d\n" ++
      "object O \x7b def make: A = new A(1, 2, null) \x7d"
    ∃ c, compile {} source = .ok c ∧ c.stage = .generated ∧
      ∃ p a, Program.ofText .user source = .ok p ∧
        analyze (preludeUnits false ++ [p]) = .ok a ∧
        c = .finished {} p a.symbols a.diagnostics (startEvents ++ a.events) ∧
        a.AgreesOnNames p := by
  intro source
  have hchecked : (Program.ofText .user source).toOption.map (fun p =>
      (p.definitions.map TypeDef.head, decide (∀ d ∈ p.definitions, d.Independent))) =
        some ([("A", []), ("int", []), ("O", [])], true) := by
    decide +kernel
  obtain ⟨p, hp, hfound⟩ := exists_ok_of_toOption hchecked
  obtain ⟨hheads, hindependent⟩ := Prod.mk.inj hfound
  have hnames : ("Any" :: ((preludeUnits false ++ [p]).flatMap (·.definitions)).map fun d =>
      d.name.text).Nodup := by
    rw [List.flatMap_append, List.flatMap_singleton, List.map_append,
      TypeDef.names_of_heads heads_preludeUnits, TypeDef.names_of_heads hheads]
    decide
  have hwell : WellFormed ((preludeUnits false ++ [p]).flatMap (·.definitions)) := by
    refine wellFormed_of_independent hnames fun d hd => ?_
    rw [List.flatMap_append, List.flatMap_singleton, List.mem_append] at hd
    rcases hd with hd | hd
    · obtain ⟨prelude, hprelude, hd⟩ := exists_of_mem_preludeUnits hd
      exact prelude_independent hprelude d hd
    · exact of_decide_eq_true hindependent d hd
  have hparsed : parseAll (sourceTexts ({} : CompilerOptions).noPrelude source) =
      .ok (preludeUnits false ++ [p]) := parseAll_sourceTexts false hp
  obtain ⟨a, ha, hharmless⟩ := harmless_analyze_iff (nodup_files_sourceTexts false source) hparsed
  obtain ⟨c, hc, hstage, -⟩ := exists_compile hparsed ha
  have hgenerated := hstage.mpr (hharmless.mpr hwell)
  exact ⟨c, hc, hgenerated, compile_agrees_on_names hc hgenerated⟩

end Mixin
