import Mixin.Proofs.Acceptance
import Mixin.Proofs.Symbol.MemberInfo

/-!
# The members that types accept

Of the declarations in a definition the first one of each key is accepted, and each later one is
reported together with the place of that first one. So which members a type has, and what is
reported while they are declared, depends on its definition alone (`Scopes`,
`diagnostics_collectDeclarations`).
-/

namespace Mixin

/-! ### Declarations -/

/-- What declares a member in a definition: a class parameter with a binding, or a member of the
body. -/
inductive Declaration where
  | parameter (p : Parameter) (binding : Binding)
  | member (m : Member)

namespace Declaration

def name : Declaration → Ident
  | parameter p _ => p.name
  | member (.field f) => f.name
  | member (.method m) => m.name

def key : Declaration → Signature
  | parameter p _ => ⟨p.name.text, 0⟩
  | member m => m.slot.key

def entity : Declaration → String
  | member (.method _) => "method"
  | _ => "field"

def info (owner : ClassId) : Declaration → MemberInfo
  | parameter p binding => .field (p.fieldInfo binding owner)
  | member (.field f) => .field (f.info owner)
  | member (.method m) => .method (m.info owner)

def parameterReports : Declaration → List Diagnostic
  | member (.method m) => SymbolTable.checkParameters (m.parameters.map (·.name))
  | _ => []

/-- The declarations that are accepted if those in `earlier` are: a further one whose key is new. -/
def accept (earlier : List Declaration) (x : Declaration) : List Declaration :=
  if x.key ∈ earlier.map key then earlier else earlier ++ [x]

/-- What is reported of a declaration behind the accepted ones in `earlier`. -/
def reports (earlier : List Declaration) (x : Declaration) : List Diagnostic :=
  x.parameterReports ++ (earlier.find? fun e => e.key == x.key).toList.map fun e =>
    .duplicate x.entity x.name.text x.name.span (some e.name.span)

def allReports (earlier : List Declaration) : List Declaration → List Diagnostic
  | [] => []
  | x :: rest => reports earlier x ++ allReports (accept earlier x) rest

section Info

variable (x : Declaration) (owner : ClassId)

theorem key_info : (x.info owner).slot.key = x.key := by
  cases x with
  | parameter p binding => rfl
  | member m =>
    cases m with
    | field f => rfl
    | method m => exact Method.info_signature m owner

theorem site_info : (x.info owner).site = some x.name.span := by
  cases x with
  | parameter p binding => rfl
  | member m => cases m <;> rfl

theorem owner_info : (x.info owner).owner = owner := by
  cases x with
  | parameter p binding => rfl
  | member m => cases m <;> rfl

theorem entity_info : (x.info owner).entity = x.entity := by
  cases x with
  | parameter p binding => rfl
  | member m => cases m <;> rfl

theorem name_info : (x.info owner).name = x.name.text := by
  cases x with
  | parameter p binding => rfl
  | member m => cases m <;> rfl

theorem parameterReports_info : (x.info owner).parameterReports = x.parameterReports := by
  cases x with
  | parameter p binding => rfl
  | member m =>
    cases m with
    | field f => rfl
    | method m =>
      refine congrArg SymbolTable.checkParameters ?_
      simp [Method.info]

end Info

theorem nodup_accept {earlier : List Declaration} (h : (earlier.map key).Nodup) (x : Declaration) :
    ((accept earlier x).map key).Nodup := by
  unfold accept
  split
  · exact h
  next hnew =>
    rw [List.map_append, List.map_singleton, ← List.concat_eq_append]
    exact (List.nodup_concat _ _).mpr ⟨hnew, h⟩

theorem accept_of_find?_none {earlier : List Declaration} {x : Declaration}
    (h : (earlier.find? fun e => e.key == x.key) = none) : accept earlier x = earlier ++ [x] := by
  refine if_neg fun hmem => ?_
  obtain ⟨e, he, hkey⟩ := List.mem_map.mp hmem
  exact List.find?_eq_none.mp h e he (beq_iff_eq.mpr hkey)

theorem accept_of_find?_some {earlier : List Declaration} {x e : Declaration}
    (h : (earlier.find? fun e => e.key == x.key) = some e) : accept earlier x = earlier := by
  have hkey := List.find?_some h
  refine if_pos (List.mem_map.mpr ⟨e, List.mem_of_find?_eq_some h, ?_⟩)
  exact beq_iff_eq.mp hkey

end Declaration

/-- The declarations of members in a definition. Of parameters that share a name only the first
counts. -/
def TypeDef.declarations (d : TypeDef) : List Declaration :=
  (distinctBy (fun p => p.name.text) [] d.parameters).filterMap
      (fun p => p.binding.map (.parameter p)) ++
    d.members.map .member

def TypeDef.accepted (d : TypeDef) : List Declaration := d.declarations.foldl Declaration.accept []

namespace Analysis

def declare (owner : ClassId) (a : Analysis) : Declaration → Analysis
  | .parameter p binding => a.declareParameter owner p binding
  | .member m => a.declareMember owner m

/-- The declarations in `earlier` were accepted for the type `owner`, and no others. -/
structure Scoped (owner : ClassId) (a : Analysis) (earlier : List Declaration) : Prop where
  mem : owner ∈ a.symbols.classIds
  known : a.symbols.MembersKnown
  infos : a.symbols.memberInfos owner = earlier.map (·.info owner)
  keys : (earlier.map Declaration.key).Nodup

section Steps

variable {owner : ClassId} {a : Analysis} {earlier : List Declaration}

theorem symbols_declare (owner : ClassId) (a : Analysis) (x : Declaration) :
    (declare owner a x).symbols = (a.symbols.declareInfo (x.info owner)).1 := by
  cases x with
  | parameter p binding => rfl
  | member m => cases m <;> rfl

theorem diagnostics_declare (owner : ClassId) (a : Analysis) (x : Declaration) :
    (declare owner a x).diagnostics =
      a.diagnostics ++ (a.symbols.declareInfo (x.info owner)).2 := by
  cases x with
  | parameter p binding => rfl
  | member m => cases m <;> rfl

theorem Scoped.collision? (h : Scoped owner a earlier) (x : Declaration) :
    a.symbols.collision? (x.info owner) =
      (earlier.find? fun e => e.key == x.key).map fun e => some e.name.span := by
  have hsome := SymbolTable.collision?_isSome (t := a.symbols) (x := x.info owner)
  simp only [Declaration.owner_info, h.infos, Declaration.key_info, List.mem_map,
    exists_exists_and_eq_and] at hsome
  cases hfound : earlier.find? fun e => e.key == x.key with
  | none =>
    rw [Option.map_none, ← Option.not_isSome_iff_eq_none, hsome]
    rintro ⟨e, he, hkey⟩
    exact List.find?_eq_none.mp hfound e he (beq_iff_eq.mpr hkey)
  | some e =>
    have he := List.mem_of_find?_eq_some hfound
    have hkey : e.key = x.key := by simpa using List.find?_some hfound
    obtain ⟨site, hsite⟩ := Option.isSome_iff_exists.mp (hsome.mpr ⟨e, he, hkey⟩)
    obtain ⟨m, hm, hmkey, rfl⟩ := SymbolTable.exists_of_collision? hsite
    -- The member found has the key of `e`, and accepted declarations differ in their keys.
    rw [x.owner_info, h.infos] at hm
    obtain ⟨e', he', rfl⟩ := List.mem_map.mp hm
    rw [Declaration.key_info, Declaration.key_info, ← hkey] at hmkey
    rw [hsite, List.inj_on_of_nodup_map h.keys he' he hmkey, Declaration.site_info]
    rfl

theorem Scoped.declare (h : Scoped owner a earlier) (x : Declaration) :
    Scoped owner (declare owner a x) (Declaration.accept earlier x) ∧
      (Analysis.declare owner a x).diagnostics =
        a.diagnostics ++ Declaration.reports earlier x := by
  have hcollision := h.collision? x
  have hgrows := SymbolTable.grows_declareInfo a.symbols (x.info owner)
  rw [diagnostics_declare]
  have hmem : owner ∈ (Analysis.declare owner a x).symbols.classIds := by
    rw [symbols_declare, SymbolTable.mem_classIds, hgrows.size]
    exact SymbolTable.mem_classIds.mp h.mem
  have hknown : (Analysis.declare owner a x).symbols.MembersKnown := by
    rw [symbols_declare]
    exact hgrows.known h.known
  cases hfound : earlier.find? fun e => e.key == x.key with
  | some e =>
    rw [hfound] at hcollision
    have hdeclared := SymbolTable.declareInfo_of_collision hcollision
    refine ⟨⟨hmem, hknown, ?_, Declaration.nodup_accept h.keys x⟩, ?_⟩
    · rw [symbols_declare, hdeclared, SymbolTable.memberInfos_push h.known,
        Declaration.accept_of_find?_some hfound, h.infos]
    · rw [hdeclared, Declaration.reports, hfound, x.parameterReports_info, x.entity_info,
        x.name_info, x.site_info]
      rfl
  | none =>
    rw [hfound] at hcollision
    have hdeclared := SymbolTable.declareInfo_of_free hcollision
    refine ⟨⟨hmem, hknown, ?_, Declaration.nodup_accept h.keys x⟩, ?_⟩
    · have hinfos := SymbolTable.memberInfos_declareInfo (by rw [x.owner_info]; exact h.mem)
        h.known hcollision
      rw [x.owner_info, h.infos] at hinfos
      rw [symbols_declare, hinfos, Declaration.accept_of_find?_none hfound, List.map_append]
      rfl
    · rw [hdeclared, Declaration.reports, hfound, x.parameterReports_info]
      simp

theorem Scoped.foldl (h : Scoped owner a earlier) (xs : List Declaration) :
    Scoped owner (xs.foldl (Analysis.declare owner) a) (xs.foldl Declaration.accept earlier) ∧
      (xs.foldl (Analysis.declare owner) a).diagnostics =
        a.diagnostics ++ Declaration.allReports earlier xs := by
  induction xs generalizing a earlier with
  | nil => exact ⟨h, (List.append_nil _).symm⟩
  | cons x xs ih =>
    obtain ⟨hstep, hreports⟩ := h.declare x
    obtain ⟨hrest, hall⟩ := ih hstep
    refine ⟨hrest, ?_⟩
    rw [List.foldl_cons, hall, hreports, Declaration.allReports, List.append_assoc]

end Steps

/-! ### Types -/

theorem foldl_declareParameter (owner : ClassId) (ps : List Parameter) (a : Analysis) :
    ps.foldl
        (fun a p =>
          match p.binding with
          | some binding => a.declareParameter owner p binding
          | none => a)
        a =
      (ps.filterMap fun p => p.binding.map (Declaration.parameter p)).foldl (declare owner) a := by
  induction ps generalizing a with
  | nil => rfl
  | cons p ps ih =>
    rw [List.foldl_cons, ih, List.filterMap_cons]
    cases p.binding <;> rfl

theorem declareType_eq_foldl (a : Analysis) (d : TypeDef) :
    a.declareType d = d.declarations.foldl (declare ⟨a.symbols.classes.size⟩) (a.headed d) := by
  rw [TypeDef.declarations, List.foldl_append, ← foldl_declareParameter, List.foldl_map]
  rfl

theorem scoped_headed {a : Analysis} (hk : a.symbols.MembersKnown) (d : TypeDef) :
    Scoped ⟨a.symbols.classes.size⟩ (a.headed d) [] where
  mem := by
    simp [SymbolTable.mem_classIds, headed, declareHead, SymbolTable.declareClass]
  known := membersKnown_headed hk d
  infos := by
    rw [SymbolTable.memberInfos, classInfo_headed, if_pos rfl]
    rfl
  keys := List.nodup_nil

theorem memberInfos_declareType {a : Analysis} (hk : a.symbols.MembersKnown) (d : TypeDef) :
    (a.declareType d).symbols.memberInfos ⟨a.symbols.classes.size⟩ =
      d.accepted.map (·.info ⟨a.symbols.classes.size⟩) := by
  rw [declareType_eq_foldl]
  exact ((scoped_headed hk d).foldl d.declarations).1.infos

theorem diagnostics_declareType {a : Analysis} (hk : a.symbols.MembersKnown) (d : TypeDef) :
    (a.declareType d).diagnostics =
      a.diagnostics ++ (d.redundantAbstract ++ (a.symbols.declareClass d.decl).diagnostics) ++
        SymbolTable.checkParameters (d.parameters.map (·.name)) ++
        Declaration.allReports [] d.declarations := by
  rw [declareType_eq_foldl, ((scoped_headed hk d).foldl d.declarations).2]
  rfl

/-- The types of the definitions have the members that the definitions declare, each key once, and
the root has none. -/
structure Scopes (ds : List TypeDef) (t : SymbolTable) : Prop where
  root : t.memberInfos .root = []
  types : ∀ p ∈ numbered ds, t.memberInfos p.2 = p.1.accepted.map (·.info p.2)

namespace Collected

variable {ds : List TypeDef} {a : Analysis}

theorem memberInfos_declareType_of_le (h : Collected ds a) (d : TypeDef) {c : ClassId}
    (hc : c.index ≤ ds.length) :
    (a.declareType d).symbols.memberInfos c = a.symbols.memberInfos c := by
  have hgrows := (declares_type h.known d).grows
  refine SymbolTable.memberInfos_of_members (t := a.symbols) hgrows.fields hgrows.methods h.known ?_
  rw [h.classInfo_declareType d hc]

theorem scopes_declareType (h : Collected ds a) (hs : Scopes ds a.symbols) (d : TypeDef) :
    Scopes (ds ++ [d]) (a.declareType d).symbols where
  root := (h.memberInfos_declareType_of_le d (Nat.zero_le _)).trans hs.root
  types := by
    intro p hp
    rw [numbered_concat] at hp
    rcases List.mem_append.mp hp with hp | hp
    · rw [h.memberInfos_declareType_of_le d (numbered_index hp).2.1]
      exact hs.types p hp
    · rw [List.mem_singleton.mp hp, ← h.size]
      exact memberInfos_declareType h.known d

theorem scopes_foldl (h : Collected ds a) (hs : Scopes ds a.symbols) (rest : List TypeDef) :
    Scopes (ds ++ rest) (rest.foldl Analysis.declareType a).symbols := by
  induction rest generalizing ds a with
  | nil => simpa using hs
  | cons d rest ih => simpa using ih (h.declareType d) (h.scopes_declareType hs d)

end Collected

theorem scopes_collectDeclarations (units : List Program) :
    Scopes (units.flatMap (·.definitions))
      (Analysis.initial.collectDeclarations units).symbols := by
  have hempty : Scopes [] Analysis.initial.symbols := ⟨rfl, by simp [numbered]⟩
  exact Collected.initial.scopes_foldl hempty (units.flatMap (·.definitions))

/-! ### After supertypes are resolved -/

theorem fields_foldl_assign {t : SymbolTable} (ps : List (TypeDef × ClassId)) (s : SymbolTable) :
    (ps.foldl (assign t) s).fields = s.fields := by
  induction ps generalizing s with
  | nil => rfl
  | cons p ps ih => exact ih _

section Final

variable {units : List Program} {a final : Analysis} {cycles : List (List ClassId)}
  {reports : List Diagnostic} {ps : List (TypeDef × ClassId)}

theorem memberInfo_final (hu : a.Untangles ps units final cycles reports) :
    final.symbols.memberInfo = a.symbols.memberInfo := by
  obtain ⟨n, hbreaks, hlast⟩ := hu.broken
  have hfields : final.symbols.fields = a.symbols.fields := by
    rw [← hlast, hbreaks.members.1]
    exact fields_foldl_assign _ _
  have hmethods : final.symbols.methods = a.symbols.methods :=
    hu.methods.trans (frame_foldl_assign _ _).2.2
  funext m
  cases m <;> simp only [SymbolTable.memberInfo, SymbolTable.fieldInfo, SymbolTable.methodInfo,
    hfields, hmethods]

theorem memberInfos_final (hu : a.Untangles ps units final cycles reports) :
    final.symbols.memberInfos = a.symbols.memberInfos := by
  funext c
  obtain ⟨superclass, traits, hc⟩ := frame_final hu c
  rw [SymbolTable.memberInfos, SymbolTable.memberInfos, memberInfo_final hu, hc]

theorem Scopes.of_untangled (hs : Scopes (units.flatMap (·.definitions)) a.symbols)
    (hu : a.Untangles ps units final cycles reports) :
    Scopes (units.flatMap (·.definitions)) final.symbols := by
  refine ⟨?_, fun p hp => ?_⟩
  · rw [memberInfos_final hu, hs.root]
  · rw [memberInfos_final hu, hs.types p hp]

end Final

/-! ### Reports -/

end Analysis

def TypeDef.declarationReports (d : TypeDef) : List Diagnostic :=
  d.redundantAbstract ++ SymbolTable.checkParameters (d.parameters.map (·.name)) ++
    Declaration.allReports [] d.declarations

namespace Analysis

theorem Collected.diagnostics_foldl {ds : List TypeDef} {a : Analysis} (h : Collected ds a)
    (rest : List TypeDef) (hnames : (a.symbols.names ++ rest.map fun d => d.name.text).Nodup) :
    (rest.foldl Analysis.declareType a).diagnostics =
      a.diagnostics ++ rest.flatMap TypeDef.declarationReports := by
  induction rest generalizing ds a with
  | nil => exact (List.append_nil _).symm
  | cons d rest ih =>
    have hnext := h.declareType d
    have hkept : (a.declareType d).symbols.names = a.symbols.names ++ [d.name.text] := by
      rw [hnext.names, h.names, List.map_append]
      rfl
    rw [List.map_cons, List.append_cons, ← hkept] at hnames
    have hnew : a.symbols.lookup? d.name.text = none := by
      rw [SymbolTable.lookup?_eq_none_iff]
      rw [hkept, List.nodup_append, ← List.concat_eq_append, List.nodup_concat] at hnames
      exact hnames.1.1
    have hclass : (a.symbols.declareClass d.decl).diagnostics = [] := by
      simp only [SymbolTable.declareClass, TypeDef.decl, hnew]
    rw [List.foldl_cons, ih hnext hnames, diagnostics_declareType h.known, hclass,
      List.flatMap_cons, TypeDef.declarationReports]
    simp only [List.append_assoc, List.append_nil]

theorem diagnostics_collectDeclarations {units : List Program}
    (hnames : ("Any" :: (units.flatMap (·.definitions)).map fun d => d.name.text).Nodup) :
    (Analysis.initial.collectDeclarations units).diagnostics =
      (units.flatMap (·.definitions)).flatMap TypeDef.declarationReports := by
  have hnew : (Analysis.initial.symbols.names ++
      (units.flatMap (·.definitions)).map fun d => d.name.text).Nodup := hnames
  exact Collected.initial.diagnostics_foldl _ hnew

/-! ### Kinds of reports -/

theorem kind_of_mem_reportRepeated {earlier names : List Ident} {e : Diagnostic}
    (he : e ∈ SymbolTable.reportRepeated earlier names) : e.kind = .duplicateDeclaration := by
  induction names generalizing earlier with
  | nil => cases he
  | cons name rest ih =>
    rw [SymbolTable.reportRepeated] at he
    split at he
    · rcases List.mem_cons.mp he with rfl | he
      · rfl
      · exact ih he
    · exact ih he

theorem kind_of_mem_allReports {earlier xs : List Declaration} {e : Diagnostic}
    (he : e ∈ Declaration.allReports earlier xs) : e.kind = .duplicateDeclaration := by
  induction xs generalizing earlier with
  | nil => cases he
  | cons x xs ih =>
    rw [Declaration.allReports, Declaration.reports, List.append_assoc, List.mem_append,
      List.mem_append] at he
    rcases he with he | he | he
    · cases x with
      | parameter => cases he
      | member m =>
        cases m with
        | field => cases he
        | method m => exact kind_of_mem_reportRepeated he
    · obtain ⟨e', -, rfl⟩ := List.mem_map.mp he
      rfl
    · exact ih he

theorem kind_of_mem_declareType {a : Analysis} (hk : a.symbols.MembersKnown) {d : TypeDef}
    {e : Diagnostic} (he : e ∈ (a.declareType d).diagnostics) :
    e ∈ a.diagnostics ∨ e.kind = .duplicateDeclaration ∨ e.kind = .redundantAbstract := by
  simp only [diagnostics_declareType hk, List.mem_append, or_assoc] at he
  rcases he with he | he | he | he | he
  · exact Or.inl he
  · unfold TypeDef.redundantAbstract at he
    split at he
    · obtain ⟨span, -, rfl⟩ := List.mem_map.mp he
      exact Or.inr (Or.inr rfl)
    · cases he
  · unfold SymbolTable.declareClass at he
    dsimp only at he
    split at he
    · rw [List.mem_singleton.mp he]
      exact Or.inr (Or.inl rfl)
    · cases he
  · exact Or.inr (Or.inl (kind_of_mem_reportRepeated he))
  · exact Or.inr (Or.inl (kind_of_mem_allReports he))

theorem Collected.kind_of_mem_foldl {ds : List TypeDef} {a : Analysis} (h : Collected ds a)
    (rest : List TypeDef) {e : Diagnostic}
    (he : e ∈ (rest.foldl Analysis.declareType a).diagnostics) :
    e ∈ a.diagnostics ∨ e.kind = .duplicateDeclaration ∨ e.kind = .redundantAbstract := by
  induction rest generalizing ds a with
  | nil => exact Or.inl he
  | cons d rest ih =>
    rcases ih (h.declareType d) he with he | hkind
    · exact kind_of_mem_declareType h.known he
    · exact Or.inr hkind

theorem kind_of_mem_collectDeclarations {units : List Program} {e : Diagnostic}
    (he : e ∈ (Analysis.initial.collectDeclarations units).diagnostics) :
    e.kind = .duplicateDeclaration ∨ e.kind = .redundantAbstract :=
  (Collected.initial.kind_of_mem_foldl _ he).resolve_left List.not_mem_nil

end Analysis

end Mixin
