import Mathlib.Data.List.Perm.Subperm
import Mixin.Proofs.Analysis.Scopes
import Mixin.Proofs.Grammar.Places
import Mixin.Proofs.Symbol.History
import Mixin.Proofs.Symbol.Implementations

/-!
# Names that are declared twice

While declarations are collected, a name is reported that an earlier declaration has already: of a
type, of a parameter of a class or of a method, or of a member. Each declaration is an
`Introduction` of its name, which is reported at most once, and nothing else is reported but
`abstract` on traits (`collectDeclarations_reports`). No place in texts of different files is
reported twice.
-/

namespace Mixin

/-! ### In turn -/

section InTurn

variable {α β γ : Type} {f : List α → α → List β}

/-- What `f` yields for each element and those before it, one after another. -/
def inTurn (f : List α → α → List β) (before : List α) : List α → List β
  | [] => []
  | x :: rest => f before x ++ inTurn f (before ++ [x]) rest

theorem inTurn_eq_flatMap (before xs : List α) :
    inTurn f before xs =
      (xs.zipIdx before.length).flatMap fun p => f ((before ++ xs).take p.2) p.1 := by
  induction xs generalizing before with
  | nil => rfl
  | cons x xs ih =>
    rw [inTurn, ih, List.zipIdx_cons, List.flatMap_cons, List.take_left]
    simp

/-- If what `f` yields for an element are places of that element, then no more is yielded for all of
them than their places. -/
theorem subperm_inTurn {h : List β → List γ} (hnil : h [] = [])
    (happend : ∀ bs cs, h (bs ++ cs) = h bs ++ h cs) {sites : α → List γ}
    (hf : ∀ before x, (h (f before x)).Subperm (sites x)) (before xs : List α) :
    (h (inTurn f before xs)).Subperm (xs.flatMap sites) := by
  induction xs generalizing before with
  | nil =>
    rw [inTurn, hnil]
    exact List.nil_subperm
  | cons x xs ih =>
    rw [inTurn, happend, List.flatMap_cons]
    exact (hf before x).append (ih _)

end InTurn

/-! ### Introductions -/

/-- A declaration of a name, and the place of an earlier one that has the name already. Only the
root has no place. -/
structure Introduction where
  entity : String
  name : Ident
  obstacle : Option (Option Span)

def Introduction.report? (i : Introduction) : Option Diagnostic :=
  i.obstacle.map (.duplicate i.entity i.name.text i.name.span)

def introduceParameters (names : List Ident) : List Introduction :=
  inTurn
    (fun before name =>
      [⟨"parameter", name, (before.find? fun e => e.text == name.text).map fun e => some e.span⟩])
    [] names

def Member.parameterNames : Member → List Ident
  | field _ => []
  | method m => m.parameters.map (·.name)

namespace Declaration

def slot : Declaration → Slot
  | parameter p _ => .field p.name.text
  | member m => m.slot

/-- One more declaration is kept if it clashes with none of those kept before. -/
def keepNext (kept : List Declaration) (x : Declaration) : List Declaration :=
  if ∃ e ∈ kept, e.slot.Clashes x.slot then kept else kept ++ [x]

def introduceMember (kept : List Declaration) (m : Member) : List Introduction :=
  introduceParameters m.parameterNames ++
    [⟨(member m).entity, (member m).name, (kept.find? fun e => e.slot.Clashes m.slot).map fun e =>
      some e.name.span⟩]

end Declaration

namespace TypeDef

/-- The parameters that are fields: those with a binding whose name no earlier parameter has. -/
def fieldParameters (d : TypeDef) : List Declaration :=
  inTurn
    (fun before p =>
      if ∃ e ∈ before, e.name.text = p.name.text then []
      else p.binding.toList.map (.parameter p))
    [] d.parameters

/-- The declarations of members that are kept of the parameters and the given members. -/
def kept (d : TypeDef) (ms : List Member) : List Declaration :=
  (d.fieldParameters ++ ms.map Declaration.member).foldl Declaration.keepNext []

/-- Where the name of a definition is taken already: by the root, or by the first definition in
`before` that has it. -/
def obstacle (before : List TypeDef) (d : TypeDef) : Option (Option Span) :=
  if d.name.text = "Any" then some none
  else (before.find? fun e => e.name.text == d.name.text).map fun e => some e.name.span

/-- The names that a definition introduces behind the definitions in `before`: its own, then those
of its parameters and of its members. -/
def introductions (before : List TypeDef) (d : TypeDef) : List Introduction :=
  ⟨d.kind.keyword, d.name, d.obstacle before⟩ ::
  (introduceParameters (d.parameters.map (·.name)) ++
    inTurn (fun ms m => Declaration.introduceMember (d.kept ms) m) [] d.members)

def redundancies (d : TypeDef) : List Diagnostic :=
  if d.kind = .trait then
    (d.modifiers.written.filter fun w => w.1 == .abstract).head?.toList.map fun w =>
      .redundantAbstract d.name.text w.2
  else []

/-- All that is reported while a definition is collected behind those in `before`. -/
def findings (before : List TypeDef) (d : TypeDef) : List Diagnostic :=
  d.redundancies ++ (d.introductions before).filterMap Introduction.report?

end TypeDef

/-! ### Parameters -/

theorem filterMap_introduceParameters (names : List Ident) :
    (introduceParameters names).filterMap Introduction.report? =
      SymbolTable.checkParameters names := by
  rw [History.checkParameters_eq, introduceParameters, inTurn_eq_flatMap, List.filterMap_flatMap,
    History.repeatedNames, List.filterMap_eq_flatMap_toList]
  refine List.flatMap_congr fun p _ => ?_
  rw [List.nil_append]
  cases (names.take p.2).find? fun e => e.text == p.1.text <;> simp [Introduction.report?]

theorem distinctBy_congr {α β : Type} [DecidableEq β] {key : α → β} {seen seen' : List β}
    (h : ∀ k, k ∈ seen ↔ k ∈ seen') (l : List α) :
    distinctBy key seen l = distinctBy key seen' l := by
  induction l generalizing seen seen' with
  | nil => rfl
  | cons a l ih =>
    have hnext : ∀ k, k ∈ key a :: seen ↔ k ∈ key a :: seen' := by simp [h]
    rw [distinctBy, distinctBy]
    simp only [h, ih h, ih hnext]

theorem inTurn_fieldParameters (before ps : List Parameter) :
    inTurn
        (fun before p =>
          if ∃ e ∈ before, e.name.text = p.name.text then []
          else p.binding.toList.map (Declaration.parameter p))
        before ps =
      (distinctBy (fun p => p.name.text) (before.map fun p => p.name.text) ps).filterMap
        fun p => p.binding.map (.parameter p) := by
  induction ps generalizing before with
  | nil => rfl
  | cons p ps ih =>
    have hseen : (∃ e ∈ before, e.name.text = p.name.text) ↔
        p.name.text ∈ before.map fun p => p.name.text := by simp
    rw [inTurn, ih, distinctBy, if_congr hseen rfl rfl]
    split
    next hold =>
      -- A second parameter of a name is no field, but its name was seen before anyway.
      rw [List.nil_append, distinctBy_congr fun k => ?_]
      rw [List.map_append, List.map_singleton, List.mem_append, List.mem_singleton]
      exact or_iff_left_of_imp fun h => h ▸ hold
    next =>
      have hnext : ∀ k, k ∈ (before ++ [p]).map (fun p => p.name.text) ↔
          k ∈ p.name.text :: before.map fun p => p.name.text := by simp [or_comm]
      rw [distinctBy_congr hnext, List.filterMap_cons]
      cases p.binding <;> rfl

namespace Declaration

theorem key_slot (x : Declaration) : x.slot.key = x.key := by
  cases x <;> rfl

theorem keepNext_eq_accept : keepNext = accept := by
  funext kept x
  rw [keepNext, accept]
  refine if_congr ?_ rfl rfl
  simp [Slot.clashes_iff, key_slot]

theorem filterMap_introduceMember (kept : List Declaration) (m : Member) :
    (introduceMember kept m).filterMap Introduction.report? = reports kept (member m) := by
  have hparameters : (member m).parameterReports =
      SymbolTable.checkParameters m.parameterNames := by
    cases m <;> rfl
  have hclash : (fun e : Declaration => decide (e.slot.Clashes m.slot)) =
      fun e => e.key == (member m).key := by
    funext e
    simp only [Slot.clashes_iff, key_slot]
    rfl
  rw [introduceMember, List.filterMap_append, filterMap_introduceParameters, reports, hparameters,
    hclash]
  cases kept.find? fun e => e.key == (member m).key <;> rfl

theorem allReports_append (earlier xs ys : List Declaration) :
    allReports earlier (xs ++ ys) =
      allReports earlier xs ++ allReports (xs.foldl accept earlier) ys := by
  induction xs generalizing earlier with
  | nil => rfl
  | cons x xs ih => simp [allReports, ih]

theorem allReports_eq_nil {earlier xs : List Declaration}
    (hkeys : ((earlier ++ xs).map key).Nodup) (hxs : ∀ x ∈ xs, x.parameterReports = []) :
    allReports earlier xs = [] ∧ xs.foldl accept earlier = earlier ++ xs := by
  induction xs generalizing earlier with
  | nil => exact ⟨rfl, (List.append_nil _).symm⟩
  | cons x xs ih =>
    have hnone : (earlier.find? fun e => e.key == x.key) = none := by
      refine List.find?_eq_none.mpr fun e he hkey => ?_
      rw [List.map_append, List.nodup_append] at hkeys
      exact hkeys.2.2 _ (List.mem_map_of_mem he) _ (by simp) (beq_iff_eq.mp hkey)
    obtain ⟨hx, hothers⟩ := List.forall_mem_cons.mp hxs
    have hnext : ((earlier ++ [x] ++ xs).map key).Nodup := by simpa using hkeys
    obtain ⟨hreports, haccepted⟩ := ih hnext hothers
    rw [allReports, reports, List.foldl_cons, accept_of_find?_none hnone, hreports, haccepted, hx,
      hnone]
    simp

end Declaration

namespace TypeDef

theorem fieldParameters_eq (d : TypeDef) :
    d.fieldParameters = (distinctBy (fun p => p.name.text) [] d.parameters).filterMap
      fun p => p.binding.map (.parameter p) :=
  inTurn_fieldParameters [] d.parameters

theorem allReports_fieldParameters (d : TypeDef) :
    Declaration.allReports [] d.fieldParameters = [] ∧
      d.fieldParameters.foldl Declaration.accept [] = d.fieldParameters := by
  refine Declaration.allReports_eq_nil ?_ fun x hx => ?_
  · have hnames := nodup_map_distinctBy (fun p : Parameter => p.name.text) [] d.parameters
    rw [List.nil_append, fieldParameters_eq, List.Nodup, List.pairwise_map, List.pairwise_filterMap]
    refine (List.pairwise_map.mp hnames).imp fun {p q} hne x hx y hy hkey => hne ?_
    obtain ⟨b, -, rfl⟩ := Option.map_eq_some_iff.mp hx
    obtain ⟨c, -, rfl⟩ := Option.map_eq_some_iff.mp hy
    exact congrArg Signature.name hkey
  · rw [fieldParameters_eq] at hx
    obtain ⟨p, -, hp⟩ := List.mem_filterMap.mp hx
    obtain ⟨b, -, rfl⟩ := Option.map_eq_some_iff.mp hp
    rfl

theorem allReports_members (d : TypeDef) (before ms : List Member) :
    Declaration.allReports (d.kept before) (ms.map .member) =
      (inTurn (fun ms m => Declaration.introduceMember (d.kept ms) m) before ms).filterMap
        Introduction.report? := by
  induction ms generalizing before with
  | nil => rfl
  | cons m ms ih =>
    have hnext : Declaration.accept (d.kept before) (.member m) = d.kept (before ++ [m]) := by
      simp [kept, List.foldl_append, Declaration.keepNext_eq_accept]
    rw [List.map_cons, Declaration.allReports, hnext, ih, inTurn, List.filterMap_append,
      Declaration.filterMap_introduceMember]

theorem allReports_declarations (d : TypeDef) :
    Declaration.allReports [] d.declarations =
      (inTurn (fun ms m => Declaration.introduceMember (d.kept ms) m) [] d.members).filterMap
        Introduction.report? := by
  -- The check of all parameters has reported repeated names; the fields among them are all kept.
  obtain ⟨hnone, haccepted⟩ := d.allReports_fieldParameters
  have hstart : d.kept [] = d.fieldParameters := by
    rw [kept, List.map_nil, List.append_nil, Declaration.keepNext_eq_accept, haccepted]
  rw [declarations, ← fieldParameters_eq, Declaration.allReports_append, hnone, haccepted,
    List.nil_append, ← d.allReports_members, hstart]

theorem redundancies_eq (d : TypeDef) : d.redundancies = d.redundantAbstract := by
  unfold redundancies redundantAbstract
  rw [List.head?_filter]
  cases hkind : d.kind with
  | trait => cases hfound : d.modifiers.written.find? fun w => w.1 == .abstract <;>
      simp [ModifierList.spanOf?, hfound]
  | _ => simp

end TypeDef

/-! ### Types -/

namespace SymbolTable

theorem map_lookup? (t : SymbolTable) (name : String) :
    (t.lookup? name).map t.classInfo = t.classes.toList.find? fun c => c.name == name := by
  have hfound : t.lookup? name =
      (t.classes.toList.findIdx? fun c => c.name == name).map ClassId.mk := by
    rw [lookup?, ← List.findIdx?_toArray]
  rw [List.find?_eq_bind_findIdx?_getElem?, hfound, Option.map_map]
  cases hi : t.classes.toList.findIdx? fun c => c.name == name with
  | none => rfl
  | some i =>
    obtain ⟨hlt, -⟩ := List.findIdx?_eq_some_iff_getElem.mp hi
    rw [Array.length_toList] at hlt
    simp [classInfo, hlt]

end SymbolTable

namespace Analysis

namespace Collected

variable {ds : List TypeDef} {a : Analysis}
  (h : Collected ds a) (hroot : (a.symbols.classInfo .root).toClassDecl = SymbolTable.rootDecl)
include h hroot

theorem decls :
    a.symbols.classes.toList.map ClassInfo.toClassDecl =
      SymbolTable.rootDecl :: ds.map TypeDef.decl := by
  have hids : a.symbols.classIds = .root :: (numbered ds).map (·.2) := by
    rw [SymbolTable.classIds, h.size, List.range_eq_range', List.range'_succ, List.map_cons,
      numbered, List.map_map, ← List.zipIdx_map_snd 1 ds, List.map_map]
    rfl
  have hdecls : (numbered ds).map (fun p => (a.symbols.classInfo p.2).toClassDecl) =
      ds.map TypeDef.decl := by
    rw [List.map_congr_left h.decl, ← Function.comp_def TypeDef.decl, ← List.map_map,
      map_fst_numbered]
  rw [SymbolTable.toList_classes, hids, List.map_cons, List.map_cons, hroot, List.map_map,
    List.map_map]
  exact congrArg _ hdecls

theorem map_site_lookup? (d : TypeDef) :
    ((a.symbols.lookup? d.name.text).map fun c => (a.symbols.classInfo c).site) =
      d.obstacle ds := by
  have hsite := congrArg (Option.map fun c : ClassInfo => c.site)
    (a.symbols.map_lookup? d.name.text)
  have hdecls := congrArg (fun cs => (cs.find? fun c => c.name == d.name.text).map ClassDecl.site)
    (h.decls hroot)
  rw [Option.map_map] at hsite
  simp only [List.find?_map, List.find?_cons, Option.map_map] at hdecls
  refine (hsite.trans hdecls).trans ?_
  unfold TypeDef.obstacle
  by_cases hany : d.name.text = "Any"
  · simp [hany, SymbolTable.rootDecl]
  · have hother : ("Any" == d.name.text) = false := beq_eq_false_iff_ne.mpr (Ne.symm hany)
    simp only [SymbolTable.rootDecl, hother, hany, if_false, Option.map_map]
    rfl

theorem diagnostics_declareClass (d : TypeDef) :
    (a.symbols.declareClass d.decl).diagnostics =
      ((d.obstacle ds).map (.duplicate d.kind.keyword d.name.text d.name.span)).toList := by
  simp only [SymbolTable.declareClass, TypeDef.decl]
  rw [← h.map_site_lookup? hroot]
  cases a.symbols.lookup? d.name.text <;> rfl

theorem diagnostics_append_findings (d : TypeDef) :
    (a.declareType d).diagnostics = a.diagnostics ++ d.findings ds := by
  rw [Analysis.diagnostics_declareType h.known, h.diagnostics_declareClass hroot,
    d.allReports_declarations, TypeDef.findings, TypeDef.introductions, d.redundancies_eq,
    ← filterMap_introduceParameters, List.filterMap_cons, List.filterMap_append]
  cases d.obstacle ds <;> simp [Introduction.report?]

theorem diagnostics_foldl_findings (rest : List TypeDef) :
    (rest.foldl Analysis.declareType a).diagnostics =
      a.diagnostics ++ inTurn TypeDef.findings ds rest := by
  induction rest generalizing ds a with
  | nil => exact (List.append_nil _).symm
  | cons d rest ih =>
    have hroot' : ((a.declareType d).symbols.classInfo .root).toClassDecl =
        SymbolTable.rootDecl := by
      rw [h.classInfo_declareType (c := .root) d (Nat.zero_le _)]
      exact hroot
    rw [List.foldl_cons, ih (h.declareType d) hroot', h.diagnostics_append_findings hroot, inTurn,
      List.append_assoc]

end Collected

end Analysis

/-! ### Places of names -/

def Member.nameSites (m : Member) : List (SourceFile × Nat) :=
  m.name.span.origin :: m.parameterNames.map (·.span.origin)

def TypeDef.nameSites (d : TypeDef) : List (SourceFile × Nat) :=
  d.name.span.origin ::
    ((d.parameters.map (·.name)).map (·.span.origin) ++ d.members.flatMap Member.nameSites)

namespace Spelling

theorem places_parameterName (rejected : ModifierSet) (B : Spelling (Option Binding)) :
    Places (OfParameter rejected B) fun p => [p.name.span.origin] := by
  intro ts p _ h
  refine List.singleton_sublist.mpr (List.mem_map.mpr ?_)
  cases h with
  | @intro hs ms bs b t => exact ⟨t, by simp, rfl⟩

theorem places_parameterNames (isCase : Bool) (kind : TypeKind) :
    Places (OfClassParameters isCase kind) fun ps => (ps.map (·.name)).map (·.span.origin) := by
  intro ts ps hts h
  cases h with
  | absent => exact List.nil_sublist _
  | present hps =>
    have hnames := (places_parameterName ..).listed.omissible.between hts hps
    rw [← List.map_eq_flatMap] at hnames
    dsimp only
    rw [List.map_map]
    exact hnames

theorem places_memberNameSites : Places OfMember Member.nameSites := by
  intro ts m hts h
  cases h with
  | field hf =>
    cases hf with
    | @intro hs ms w b t => exact List.singleton_sublist.mpr (List.mem_map.mpr ⟨t, by simp, rfl⟩)
  | method hm =>
    cases hm with
    | @intro hs ms w t ts tps us cs vs result bs body _ _ _ _ _ _ hcs =>
      -- A method is reported behind its parameters, but its name is written before them.
      have hus : us.Sublist (ts ++ (us ++ (vs ++ bs))) :=
        (List.sublist_append_left ..).trans (List.sublist_append_right ..)
      have hall : (t :: us).Sublist (hs ++ w :: t :: (ts ++ (us ++ (vs ++ bs)))) :=
        ((hus.cons_cons t).cons w).trans (List.sublist_append_right ..)
      have hclauses := (places_parameterName ..).listed.omissible.between.chained
        (hts.sublist hall).of_cons hcs
      have hsites : cs.flatMap (List.flatMap fun p => [p.name.span.origin]) =
          (cs.flatten.map (·.name)).map (·.span.origin) := by
        have hclause : (List.flatMap fun p : Parameter => [p.name.span.origin]) =
            List.map fun p => p.name.span.origin := funext fun c => List.map_eq_flatMap.symm
        rw [hclause, List.map_map, List.map_flatten, List.flatMap_def]
        rfl
      rw [hsites] at hclauses
      exact (hclauses.cons_cons t.span.origin).trans (hall.map fun t : Token => t.span.origin)

theorem places_nameSites : Places OfTypeDef TypeDef.nameSites := by
  intro ts d hts h
  cases h with
  | @intro hs ms w kind t ts tps us ps vs parents bs members _ _ _ _ _ hps _ hmembers =>
    have hbody : (us ++ bs).Sublist (ts ++ (us ++ (vs ++ bs))) :=
      ((List.Sublist.refl us).append (List.sublist_append_right vs bs)).trans
        (List.sublist_append_right ts _)
    have hall : (t :: (us ++ bs)).Sublist (hs ++ w :: t :: (ts ++ (us ++ (vs ++ bs)))) :=
      ((hbody.cons_cons t).cons w).trans (List.sublist_append_right ..)
    obtain ⟨hus, hbs⟩ := increasing_append (hts.sublist hall).of_cons
    have hparameters := places_parameterNames _ kind hus hps
    have hnames := places_memberNameSites.closed.headed.omissible hbs hmembers
    have hboth := (hparameters.append hnames).cons_cons t.span.origin
    rw [← Cursor.origins_append] at hboth
    exact hboth.trans (hall.map fun t : Token => t.span.origin)

end Spelling

/-! ### Places of reports -/

theorem map_introduceParameters (names : List Ident) :
    (introduceParameters names).map (·.name.span.origin) = names.map (·.span.origin) := by
  have hnames : (introduceParameters names).map (·.name) = names := by
    rw [introduceParameters, inTurn_eq_flatMap, ← List.map_eq_flatMap, List.map_map]
    exact List.zipIdx_map_fst 0 names
  rw [← congrArg (List.map fun name => name.span.origin) hnames, List.map_map]
  rfl

theorem Declaration.subperm_introduceMember (kept : List Declaration) (m : Member) :
    ((introduceMember kept m).map (·.name.span.origin)).Subperm m.nameSites := by
  have hname : (member m).name = m.name := by cases m <;> rfl
  rw [introduceMember, List.map_append, map_introduceParameters, List.map_singleton, hname]
  exact (List.perm_append_singleton ..).subperm

theorem TypeDef.subperm_introductions (before : List TypeDef) (d : TypeDef) :
    ((d.introductions before).map (·.name.span.origin)).Subperm d.nameSites := by
  have hmembers := subperm_inTurn (h := List.map fun i : Introduction => i.name.span.origin) rfl
    (fun _ _ => List.map_append) (fun ms => Declaration.subperm_introduceMember (d.kept ms)) []
    d.members
  rw [introductions, nameSites, List.map_cons, List.map_append, map_introduceParameters]
  exact (List.subperm_cons _).mpr ((List.Subperm.refl _).append hmembers)

def duplicateSites (es : List Diagnostic) : List Span :=
  (es.filter fun e => e.kind == .duplicateDeclaration).map (·.location)

theorem duplicateSites_append (es es' : List Diagnostic) :
    duplicateSites (es ++ es') = duplicateSites es ++ duplicateSites es' := by
  simp [duplicateSites]

theorem sublist_duplicateSites (is : List Introduction) :
    (duplicateSites (is.filterMap Introduction.report?)).Sublist (is.map (·.name.span)) := by
  induction is with
  | nil => exact List.nil_sublist _
  | cons i is ih =>
    cases hobstacle : i.obstacle with
    | none =>
      rw [List.filterMap_cons_none (by simp [Introduction.report?, hobstacle])]
      exact ih.cons _
    | some previous =>
      rw [List.filterMap_cons_some (by rw [Introduction.report?, hobstacle]; rfl)]
      exact ih.cons_cons _

theorem TypeDef.subperm_findings (before : List TypeDef) (d : TypeDef) :
    ((duplicateSites (d.findings before)).map Span.origin).Subperm d.nameSites := by
  have hnone : duplicateSites d.redundancies = [] := by
    unfold redundancies
    split
    · cases (d.modifiers.written.filter fun w => w.1 == .abstract).head? <;> rfl
    · rfl
  have hsites := (sublist_duplicateSites (d.introductions before)).map Span.origin
  rw [List.map_map] at hsites
  rw [findings, duplicateSites_append, hnone, List.nil_append]
  exact hsites.subperm.trans (d.subperm_introductions before)

namespace Analysis

/-- Each declaration of a name that is taken is reported, at its place, and nothing else but
`abstract` on traits. -/
theorem collectDeclarations_reports (units : List Program) :
    (Analysis.initial.collectDeclarations units).diagnostics =
        inTurn TypeDef.findings [] (units.flatMap (·.definitions)) ∧
      ∀ texts : List (SourceFile × String), (texts.map (·.1)).Nodup → parseAll texts = .ok units →
        (duplicateSites (Analysis.initial.collectDeclarations units).diagnostics).Nodup := by
  have hreports : (Analysis.initial.collectDeclarations units).diagnostics =
      inTurn TypeDef.findings [] (units.flatMap (·.definitions)) :=
    Collected.initial.diagnostics_foldl_findings rfl _
  refine ⟨hreports, fun texts hfiles hparsed => ?_⟩
  have hsubperm := subperm_inTurn (h := fun es => (duplicateSites es).map Span.origin) rfl
    (fun es es' => by rw [duplicateSites_append, List.map_append]) TypeDef.subperm_findings []
    (units.flatMap (·.definitions))
  have hnodup := (nodup_sites Spelling.places_nameSites.ofText hfiles hparsed).1
  rw [← List.flatMap_assoc] at hnodup
  obtain ⟨sites, hperm, hsublist⟩ := hsubperm
  rw [hreports]
  exact .of_map Span.origin (hperm.nodup_iff.mp (hnodup.sublist hsublist))

/-- A warning and four names that are taken: of two parameters, of a method and of a type. -/
theorem collectDeclarations_reports_mixed :
    let texts := [(SourceFile.user, "abstract trait T\nclass A(x: B, val x: B) \x7b\n" ++
      "  val y = 1\n  def y = 2\n  def f(p: B)(p: B)\n\x7d\nclass A")]
    ∃ units, parseAll texts = .ok units ∧ (texts.map (·.1)).Nodup ∧
      (Analysis.initial.collectDeclarations units).diagnostics.map (·.location.start) =
        [0, 35, 61, 81, 95] ∧
      (Analysis.initial.collectDeclarations units).diagnostics =
        inTurn TypeDef.findings [] (units.flatMap (·.definitions)) ∧
      (duplicateSites (Analysis.initial.collectDeclarations units).diagnostics).Nodup := by
  intro texts
  have hchecked : (parseAll texts).toOption.map (fun units =>
      (Analysis.initial.collectDeclarations units).diagnostics.map (·.location.start)) =
        some [0, 35, 61, 81, 95] := by
    decide +kernel
  cases hparsed : parseAll texts with
  | error es =>
    rw [hparsed] at hchecked
    cases hchecked
  | ok units =>
    rw [hparsed] at hchecked
    obtain ⟨hreports, hnodup⟩ := collectDeclarations_reports units
    have hfiles : (texts.map (·.1)).Nodup := List.nodup_singleton _
    exact ⟨units, rfl, hfiles, Option.some.inj hchecked, hreports, hnodup texts hfiles hparsed⟩

end Analysis

end Mixin
