import Mixin.Proofs.Analysis.Reports
import Mixin.Proofs.Analysis.Scopes

/-!
# Methods that types have to implement

For each type that has to be complete, one problem is reported for each signature that its chain
declares without a body, never supplies with one, and does not declare in the type itself first. The
problems come in the order in which these signatures are first declared
(`analyze_reports_unimplemented`), whatever else is wrong: the chains and their members are those
that are left when clashing members are rejected and circles are broken. Of several definitions at
the same place, only the last one is looked at, once for each.
-/

namespace Mixin

/-! ### The first of each key -/

theorem eraseDups_filter {α : Type} [DecidableEq α] (p : α → Bool) (l : List α) :
    (l.filter p).eraseDups = l.eraseDups.filter p := by
  induction hn : l.length using Nat.strongRecOn generalizing l with
  | ind n ih =>
    subst hn
    cases l with
    | nil => rfl
    | cons a l =>
      have hrest := ih _ (Nat.lt_succ_of_le (List.length_filter_le (fun b => !b == a) l)) _ rfl
      rw [List.eraseDups_cons]
      by_cases ha : p a = true
      · rw [List.filter_cons_of_pos ha, List.filter_cons_of_pos ha, List.eraseDups_cons, ← hrest,
          List.filter_filter, List.filter_filter]
        simp only [Bool.and_comm]
      · rw [List.filter_cons_of_neg ha, List.filter_cons_of_neg ha, ← hrest, List.filter_filter]
        refine congrArg List.eraseDups (List.filter_congr fun b _ => ?_)
        by_cases hb : b = a
        · simp [hb, ha]
        · simp [hb]

theorem distinctBy_eq_filterMap {α β : Type} [DecidableEq β] (key : α → β) (seen : List β)
    (l : List α) :
    distinctBy key seen l =
      ((l.map key).filter fun k => k ∉ seen).eraseDups.filterMap fun k =>
        l.find? fun a => key a == k := by
  induction l generalizing seen with
  | nil => rfl
  | cons a l ih =>
    have hskip {ks : List β} (hks : ∀ k ∈ ks, key a ≠ k) :
        (ks.filterMap fun k => (a :: l).find? fun a => key a == k) =
          ks.filterMap fun k => l.find? fun a => key a == k :=
      List.filterMap_congr fun k hk => List.find?_cons_of_neg (by simpa using hks k hk)
    rw [distinctBy, List.map_cons]
    by_cases ha : key a ∈ seen
    · rw [if_pos ha, ih, List.filter_cons_of_neg (by simpa using ha), hskip]
      rintro k hk rfl
      simp [ha] at hk
    · have hkeys : ((l.map key).filter fun k => k ∉ seen).filter (fun k => !k == key a) =
          (l.map key).filter fun k => k ∉ key a :: seen := by
        rw [List.filter_filter]
        refine List.filter_congr fun k _ => ?_
        by_cases hk : k = key a <;> simp [hk]
      have hfirst : ((a :: l).find? fun b => key b == key a) = some a :=
        List.find?_cons_of_pos (beq_self_eq_true _)
      rw [if_neg ha, ih, List.filter_cons_of_pos (by simpa using ha), List.eraseDups_cons, hkeys,
        List.filterMap_cons_some (f := fun k => (a :: l).find? fun b => key b == k) hfirst, hskip]
      rintro k hk rfl
      simp at hk

/-! ### What is missing from a type -/

/-- The signatures of the methods without a body, in the order of the first such method. -/
def bodilessSignatures (ms : List MethodInfo) : List Signature :=
  ((ms.filter (·.isAbstract)).map (·.signature)).eraseDups

/-- The method that the type `c` lacks for a signature, if its chain has the methods `ms`: the first
one without a body, unless another one has a body or the first one is a method of `c` itself. -/
def lacking? (c : ClassId) (ms : List MethodInfo) (s : Signature) : Option MethodInfo :=
  (ms.find? fun m => m.isAbstract && m.signature == s).filter fun m =>
    (¬ ∃ m' ∈ ms, m'.signature = s ∧ m'.isAbstract = false) ∧ m.owner ≠ c

def unimplemented (t : SymbolTable) (p : TypeDef × ClassId) : List Diagnostic :=
  if p.1.MayBeIncomplete then []
  else
    ((bodilessSignatures (t.chainInfos p.2)).filterMap (lacking? p.2 (t.chainInfos p.2))).map
      fun m => .unimplementedMember ⟨p.1.kind, p.1.name.text, some p.1.name.span⟩ m.sketch
        (t.classInfo m.owner).name

namespace SymbolTable

variable {t : SymbolTable} {c : ClassId}

theorem map_abstractMembers (t : SymbolTable) (c : ClassId) :
    (t.abstractMembers c).map t.methodInfo =
      distinctBy MethodInfo.signature [] ((t.chainInfos c).filter fun m =>
        m.isAbstract && m.signature ∉
          ((t.chainInfos c).filter fun m => !m.isAbstract).map MethodInfo.signature) := by
  rw [abstractMembers, distinctBy_map t.methodInfo MethodInfo.signature, ← map_chainMethods,
    List.filter_map, List.filter_map, List.map_map]
  rfl

/-- A method without a body is to be implemented if it is the first of its signature and no method
of its signature has a body. -/
theorem filter_abstractMembers (t : SymbolTable) (c : ClassId) :
    ((t.abstractMembers c).map t.methodInfo).filter (fun m => m.owner ≠ c) =
      (bodilessSignatures (t.chainInfos c)).filterMap (lacking? c (t.chainInfos c)) := by
  rw [map_abstractMembers]
  generalize t.chainInfos c = ms
  let implemented := (ms.filter fun m => !m.isAbstract).map MethodInfo.signature
  have himplemented (s : Signature) :
      s ∈ implemented ↔ ∃ m ∈ ms, m.signature = s ∧ m.isAbstract = false := by
    simp only [implemented, List.mem_map, List.mem_filter, Bool.not_eq_true', and_assoc,
      and_comm (a := MethodInfo.isAbstract _ = false)]
  have hkeys : ((ms.filter fun m => m.isAbstract && m.signature ∉ implemented).map
      MethodInfo.signature).eraseDups = (bodilessSignatures ms).filter (· ∉ implemented) := by
    rw [bodilessSignatures, ← eraseDups_filter, List.filter_map, List.filter_filter]
    simp only [Function.comp_def, Bool.and_comm]
  rw [distinctBy_eq_filterMap]
  simp only [List.not_mem_nil, not_false_eq_true, decide_true, List.filter_true]
  rw [hkeys, List.filterMap_filter, List.filter_filterMap]
  refine List.filterMap_congr fun s _ => ?_
  by_cases hs : s ∈ implemented
  · have hbody := (himplemented s).mp hs
    simp [hs, lacking?, hbody]
  · have hbody : ¬ ∃ m ∈ ms, m.signature = s ∧ m.isAbstract = false :=
      fun h => hs ((himplemented s).mpr h)
    have hfirst : ((ms.filter fun m => m.isAbstract && m.signature ∉ implemented).find?
        fun m => m.signature == s) = ms.find? fun m => m.isAbstract && m.signature == s := by
      rw [List.find?_filter]
      refine congrArg (fun p => List.find? p ms) (funext fun m => ?_)
      by_cases hm : m.signature = s <;> simp [hm, hs]
    simp only [hs, not_false_eq_true, decide_true, if_true, lacking?, hbody, true_and]
    exact congrArg _ hfirst

theorem mem_of_lacking? {ms : List MethodInfo} {s : Signature} {m : MethodInfo}
    (h : lacking? c ms s = some m) : m ∈ ms ∧ m.isAbstract = true := by
  have hfound := (Option.filter_eq_some_iff.mp h).1
  have habstract := List.find?_some hfound
  exact ⟨List.mem_of_find?_eq_some hfound, (Bool.and_eq_true_iff.mp habstract).1⟩

end SymbolTable

namespace Analysis

variable {ds : List TypeDef} {t : SymbolTable} {p : TypeDef × ClassId}

theorem unimplemented_of_trait (h : p.1.kind = .trait) : unimplemented t p = [] := by
  have hmay : p.1.MayBeIncomplete := Or.inl h
  rw [unimplemented, if_pos hmay]

theorem obligations_known (hdecl : (t.classInfo p.2).toClassDecl = p.1.decl) (d : TypeDef) :
    Visit.obligations t (.type d p.2) = if d.kind = .trait then [] else unimplemented t p := by
  have hsketch : (t.classInfo p.2).sketch = ⟨p.1.kind, p.1.name.text, some p.1.name.span⟩ := by
    rw [ClassInfo.sketch, hdecl]
    rfl
  have hmay := mayBeIncomplete_iff hdecl
  have hfound : (Visit.outstanding t p.2).map (fun m =>
      .unimplementedMember (t.classInfo p.2).sketch m.sketch (t.classInfo m.owner).name) =
        unimplemented t p := by
    rw [Visit.outstanding, unimplemented]
    by_cases hincomplete : p.1.MayBeIncomplete
    · rw [if_pos (hmay.mpr hincomplete), if_pos hincomplete, List.map_nil]
    · rw [if_neg fun htrue => hincomplete (hmay.mp htrue), if_neg hincomplete, hsketch]
      exact congrArg _ (t.filter_abstractMembers p.2)
  cases hk : d.kind with
  | trait => simp only [Visit.obligations, hk, if_true]
  | _ => simpa only [Visit.obligations, hk, reduceCtorEq, if_false] using hfound

theorem obligations_type (hdecl : (t.classInfo p.2).toClassDecl = p.1.decl) :
    Visit.obligations t (.type p.1 p.2) = unimplemented t p := by
  rw [obligations_known hdecl, ite_eq_right_iff]
  exact fun htrait => (unimplemented_of_trait htrait).symm

theorem kind_of_mem_unimplemented {e : Diagnostic} (he : e ∈ unimplemented t p) :
    e.kind = .unimplementedMember := by
  unfold unimplemented at he
  split at he
  · cases he
  · obtain ⟨m, -, rfl⟩ := List.mem_map.mp he
    rfl

theorem filter_of_kind_eq {kind : DiagnosticKind} {es : List Diagnostic}
    (h : ∀ e ∈ es, e.kind = kind) : es.filter (fun e => e.kind = kind) = es :=
  List.filter_eq_self.mpr fun e he => decide_eq_true (h e he)

theorem filter_of_kind_ne {kind other : DiagnosticKind} {es : List Diagnostic} (hne : other ≠ kind)
    (h : ∀ e ∈ es, e.kind = other) : es.filter (fun e => e.kind = kind) = [] :=
  List.filter_eq_nil_iff.mpr fun e he => by simp [h e he, hne]

theorem kind_of_mem_missingBody {m : MethodInfo} {e : Diagnostic} (he : e ∈ m.missingBody t) :
    e.kind = .abstractInConcrete := by
  unfold MethodInfo.missingBody at he
  dsimp only at he
  split at he
  · rw [List.mem_singleton.mp he]
    rfl
  · cases he

theorem kind_of_mem_missingInitializers {e : Diagnostic} (he : e ∈ missingInitializers ds) :
    e.kind = .missingInitializer := by
  obtain ⟨d, -, he⟩ := List.mem_flatMap.mp he
  obtain ⟨f, -, rfl⟩ := List.mem_map.mp he
  rfl

theorem filter_missingBodies (hdecl : ∀ p ∈ numbered ds, (t.classInfo p.2).toClassDecl = p.1.decl) :
    (knownMissingBodies t ds).filter (fun e => e.kind = .unimplementedMember) =
      (numbered ds).flatMap fun p =>
        if p.1.kind = .trait then [] else unimplemented t (occupant ds p) := by
  rw [knownMissingBodies, List.filter_flatMap]
  refine List.flatMap_congr fun p hp => ?_
  rw [List.filter_append, obligations_known (hdecl _ (occupant_mem hp)), List.filter_flatMap]
  refine (congrArg (_ ++ ·) (List.flatMap_eq_nil_iff.mpr fun m _ =>
    filter_of_kind_ne (by decide) fun e he => kind_of_mem_missingBody he)).trans ?_
  rw [List.append_nil]
  split
  · rfl
  · exact filter_of_kind_eq fun e he => kind_of_mem_unimplemented he

theorem kind_of_mem_resolvedUnits {units : List Program} {e : Diagnostic}
    (he : e ∈ (resolvedUnits units).diagnostics) :
    e.kind ∈ [.duplicateDeclaration, .redundantAbstract, .unresolvedSupertype,
      .cyclicInheritance] := by
  obtain ⟨cycles, reports, hu⟩ := untangled_located units
  obtain ⟨unresolved, hkind, hresolved⟩ := hu.unresolved
  rw [hu.reported.1, hresolved, List.mem_append, List.mem_append] at he
  rcases he with (he | he) | he
  · rcases kind_of_mem_collectDeclarations he with hkind | hkind <;> simp [hkind]
  · simp [hkind e he]
  · obtain ⟨cycle, -, first, rest, rfl, -⟩ := exists_mem_of_forall₂ hu.reported.2 he
    simp [Diagnostic.kind]

theorem filter_resolvedUnits {units : List Program} {kind : DiagnosticKind}
    (hkind : kind ∉ [.duplicateDeclaration, .redundantAbstract, .unresolvedSupertype,
      .cyclicInheritance]) :
    (resolvedUnits units).diagnostics.filter (fun e => e.kind = kind) = [] := by
  refine List.filter_eq_nil_iff.mpr fun e he heq => hkind ?_
  rw [← of_decide_eq_true heq]
  exact kind_of_mem_resolvedUnits he

/-! ### Where it is reported -/

theorem Scopes.exists_of_mem_methodInfos (hs : Scopes ds t) (hsize : t.classes.size = ds.length + 1)
    {c : ClassId} {m : MethodInfo} (hm : m ∈ t.methodInfos c) :
    ∃ q ∈ numbered ds, q.2 = c ∧ ∃ method, .member (.method method) ∈ q.1.accepted ∧
      m = method.info c := by
  have hmem := hm
  rw [SymbolTable.methodInfos_eq_filterMap] at hmem
  rcases cases_id hsize c with rfl | ⟨q, hq, rfl⟩ | hc
  · rw [hs.root] at hmem
    cases hmem
  · refine ⟨q, hq, rfl, ?_⟩
    rw [hs.types q hq, List.filterMap_map] at hmem
    obtain ⟨x, hx, hinfo⟩ := List.mem_filterMap.mp hmem
    cases x with
    | parameter => cases hinfo
    | member member =>
      cases member with
      | field => cases hinfo
      | method method => exact ⟨method, hx, (Option.some.inj hinfo).symm⟩
  · rw [SymbolTable.methodInfos, SymbolTable.classInfo_eq_default_of_notMem hc] at hm
    cases hm

/-- What a type has to implement is reported where the type is named, with a note where the method
is named in the type that declares it. -/
theorem Scopes.site_of_mem_unimplemented (hs : Scopes ds t)
    (hsize : t.classes.size = ds.length + 1) {e : Diagnostic} (he : e ∈ unimplemented t p) :
    e.location = p.1.name.span ∧ ∃ q ∈ numbered ds, q.2 ∈ t.chain p.2 ∧
      ∃ m : Method, .member (.method m) ∈ q.1.accepted ∧ m.isAbstract = true ∧
        e.boundNotes =
          [(m.name.span, Diagnostic.quoted m.name.text ++ " declared abstract here")] := by
  unfold unimplemented at he
  split at he
  · cases he
  · obtain ⟨m, hm, rfl⟩ := List.mem_map.mp he
    refine ⟨rfl, ?_⟩
    obtain ⟨s, -, hlacking⟩ := List.mem_filterMap.mp hm
    obtain ⟨hchain, habstract⟩ := SymbolTable.mem_of_lacking? hlacking
    obtain ⟨c, hc, hinfo⟩ := List.mem_flatMap.mp hchain
    obtain ⟨q, hq, rfl, method, hmethod, rfl⟩ := hs.exists_of_mem_methodInfos hsize hinfo
    exact ⟨q, hq, hc, method, hmethod, habstract, rfl⟩

/-- An analysis of the definitions `ds` reports exactly which methods have to be implemented, and
where. The methods in question are those that the definitions declare and that were accepted. -/
structure ReportsUnimplemented (ds : List TypeDef) (a : Analysis) : Prop where
  scopes : Scopes ds a.symbols
  reports : a.diagnostics.filter (fun e => e.kind = .unimplementedMember) =
    (numbered ds).flatMap fun p =>
      if p.1.kind = .trait then [] else unimplemented a.symbols (occupant ds p)
  sites : ∀ p ∈ numbered ds, ∀ e ∈ unimplemented a.symbols p,
    e.location = p.1.name.span ∧ ∃ q ∈ numbered ds, q.2 ∈ a.symbols.chain p.2 ∧
      ∃ m : Method, .member (.method m) ∈ q.1.accepted ∧ m.isAbstract = true ∧
        e.boundNotes = [(m.name.span, Diagnostic.quoted m.name.text ++ " declared abstract here")]

theorem ReportsUnimplemented.reports_own {a : Analysis} (h : ReportsUnimplemented ds a)
    (hdistinct : (ds.map (·.signature)).Nodup) :
    a.diagnostics.filter (fun e => e.kind = .unimplementedMember) =
      (numbered ds).flatMap (unimplemented a.symbols) := by
  rw [h.reports]
  refine List.flatMap_congr fun p hp => ?_
  rw [occupant_eq_self hdistinct hp, ite_eq_right_iff]
  exact fun htrait => (unimplemented_of_trait htrait).symm

theorem exists_reportsUnimplemented (units : List Program) :
    ∃ a, analyze units = .ok a ∧ a.symbols = (resolvedUnits units).symbols ∧
      a.ReportsUnimplemented (units.flatMap (·.definitions)) := by
  have h := Analysis.collected units
  obtain ⟨cycles, reports, hu⟩ := untangled_located units
  obtain ⟨a, ha, hsymbols, hdiagnostics⟩ := analyze_known_reports units
  have hscopes : Scopes (units.flatMap (·.definitions)) a.symbols := by
    rw [hsymbols]
    exact (scopes_collectDeclarations units).of_untangled hu
  have hdecl := h.decl_final hu
  rw [← hsymbols] at hdecl
  refine ⟨a, ha, hsymbols, hscopes, ?_, fun p _ e he =>
    hscopes.site_of_mem_unimplemented (hsymbols ▸ h.size_final hu) he⟩
  rw [hdiagnostics, List.filter_append, List.filter_append, filter_resolvedUnits (by decide),
    filter_of_kind_ne (by decide) fun e he => kind_of_mem_missingInitializers he, ← hsymbols,
    filter_missingBodies hdecl]
  rfl

end Analysis

open Analysis in
/-- The analyses of parsed units report of methods without an implementation exactly what
`unimplemented` says of the definition for which the registry takes each one in turn, whatever else
they report. If no two definitions stand at the same place, each is taken for itself. -/
theorem analyze_reports_unimplemented {texts : List (SourceFile × String)} {units : List Program}
    (hparsed : parseAll texts = .ok units) :
    let ds := units.flatMap (·.definitions)
    ∃ a, analyze units = .ok a ∧ a.ReportsUnimplemented ds ∧
      (∀ p ∈ numbered ds, (Analysis.initial.collectDeclarations units).registry.classOf p.1 =
        .ok (occupant ds p).2) ∧
      ((ds.map (·.signature)).Nodup → (∀ p ∈ numbered ds, occupant ds p = p) ∧
        a.diagnostics.filter (fun e => e.kind = .unimplementedMember) =
          (numbered ds).flatMap (unimplemented a.symbols)) ∧
      ((texts.map (·.1)).Nodup → (ds.map (·.signature)).Nodup) := by
  intro ds
  obtain ⟨a, ha, -, hreports⟩ := exists_reportsUnimplemented units
  exact ⟨a, ha, hreports, fun p hp => (Analysis.collected units).classOf_occupant hp,
    fun hdistinct => ⟨fun p hp => occupant_eq_self hdistinct hp, hreports.reports_own hdistinct⟩,
    fun hfiles => nodup_signatures hfiles hparsed⟩

open Analysis in
/-- A method that is declared with a body too late, a name that two types share, a parent that does
not exist, and a type that inherits from itself. -/
theorem analyze_reports_unimplemented_rejected :
    let texts := [(SourceFile.user,
      "trait T \x7b def f: Int; def f: Int = 1; def g(x: Int): Int \x7d\n" ++
      "trait U extends Missing \x7b def g(y: Int): Int \x7d\n" ++
      "class C extends T with U \x7b def f(x: Int): Int = x \x7d\n" ++
      "class T extends U\nobject D extends D with U")]
    ∃ units, parseAll texts = .ok units ∧
      let ds := units.flatMap (·.definitions)
      ∃ a, analyze units = .ok a ∧ a.ReportsUnimplemented ds ∧
        (∀ p ∈ numbered ds, (Analysis.initial.collectDeclarations units).registry.classOf p.1 =
          .ok (occupant ds p).2) ∧
        (∀ p ∈ numbered ds, occupant ds p = p) ∧
        a.diagnostics.filter (fun e => e.kind = .unimplementedMember) =
          (numbered ds).flatMap (unimplemented a.symbols) := by
  intro texts
  have hfiles : (texts.map (·.1)).Nodup := by decide
  have hparsed : (parseAll texts).toOption.map (fun _ => ()) = some () := by decide +kernel
  obtain ⟨units, hunits, -⟩ := exists_ok_of_toOption hparsed
  obtain ⟨a, ha, hreports, hknown, hown, hplaces⟩ := analyze_reports_unimplemented hunits
  exact ⟨units, hunits, a, ha, hreports, hknown, hown (hplaces hfiles)⟩

theorem SymbolTable.chain_of_parent {t : SymbolTable} {c p : ClassId} (hroot : c ≠ .root)
    (hc : c ∈ t.classIds) (hp : p ∈ t.classIds.erase c) (hparents : t.searchedParents c = [p])
    (hnone : t.searchedParents p = []) : t.chain c = [c, p, .root] := by
  rw [chain, if_neg hroot, explore, dif_pos hc, hparents, List.singleton_append, explore,
    dif_pos hp, hnone, List.nil_append, explore]
  rfl

open Analysis in
/-- Where `A` and `B` stand at the same place, what `B` has to implement is reported for both. -/
theorem other_type_looked_at :
    let texts := [(SourceFile.user, "trait T \x7b def f: Int \x7d\nclass A extends T"),
      (SourceFile.user, "trait U \x7b def g: Int \x7d\nclass B extends U")]
    let problem := "class `B` does not implement abstract method `g` inherited from `U`"
    ∃ units a, parseAll texts = .ok units ∧ analyze units = .ok a ∧
      (a.diagnostics.filter fun e => e.kind = .unimplementedMember).map (·.message) =
        [problem, problem] := by
  intro texts problem
  have hchecked : (parseAll texts).toOption.map (fun units =>
      let ds := units.flatMap (·.definitions)
      let collected := Analysis.initial.collectDeclarations units
      let t := (collected.assigned (located ds)).symbols
      -- The chain of `B`, as it follows from the parents, is written out here.
      let ms := [⟨4⟩, ⟨3⟩, .root].flatMap t.methodInfos
      decide ((∀ e ∈ collected.assignedEdges (located ds), e.parent.index < e.heir.index) ∧
        (t.searchedParents ⟨4⟩ = [⟨3⟩] ∧ t.searchedParents ⟨3⟩ = [] ∧ t.classes.size = 5) ∧
        (∀ p ∈ numbered ds, p.1.kind = .trait ∨
          (occupant ds p).2 = ⟨4⟩ ∧ ¬ (occupant ds p).1.MayBeIncomplete ∧
            (((bodilessSignatures ms).filterMap (lacking? ⟨4⟩ ms)).map fun m =>
              (Diagnostic.unimplementedMember ⟨(occupant ds p).1.kind, (occupant ds p).1.name.text,
                some (occupant ds p).1.name.span⟩ m.sketch (t.classInfo m.owner).name).message) =
              [problem]) ∧
        ((numbered ds).flatMap fun p => if p.1.kind = .trait then [] else [problem]) =
          [problem, problem])) = some true := by
    decide +kernel
  obtain ⟨units, hparsed, hfacts⟩ := exists_ok_of_toOption hchecked
  obtain ⟨hedges, ⟨hfour, hthree, hsize⟩, hlacking, htwice⟩ := of_decide_eq_true hfacts
  obtain ⟨a, ha, hsymbols, hreports⟩ := exists_reportsUnimplemented units
  obtain ⟨cycles, reports, hu⟩ := untangled_located units
  obtain rfl := hu.reports_eq_nil hedges
  rw [hu.symbols_eq] at hsymbols
  have hknown (i : Nat) (hi : i < 5) : (⟨i⟩ : ClassId) ∈ a.symbols.classIds :=
    SymbolTable.mem_classIds.mpr (hsymbols ▸ hsize ▸ hi)
  rw [← hsymbols] at hfour hthree hlacking
  have hchain : a.symbols.chain ⟨4⟩ = [⟨4⟩, ⟨3⟩, .root] := by
    refine SymbolTable.chain_of_parent (by decide) (hknown 4 (by decide)) ?_ hfour hthree
    exact (List.mem_erase_of_ne (by decide)).mpr (hknown 3 (by decide))
  refine ⟨units, a, hparsed, ha, ?_⟩
  rw [hreports.reports, List.map_flatMap, ← htwice]
  refine List.flatMap_congr fun p hp => ?_
  split
  · rfl
  next hkind =>
    obtain ⟨hid, hmay, hmessages⟩ := (hlacking p hp).resolve_left hkind
    rw [unimplemented, if_neg hmay, hid, SymbolTable.chainInfos, hchain, List.map_map]
    exact hmessages

end Mixin
