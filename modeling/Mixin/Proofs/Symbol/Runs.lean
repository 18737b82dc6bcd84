import Mixin.Proofs.Symbol.History

/-!
# Tables and the calls that made them

A symbol table starts with the root and grows by calls that declare a type, a field or a method. All
that it holds follows from these calls and the identifiers they returned (`run_reflects`), whatever
was declared twice. What clashes is reported once, with the place of the declaration it clashes
with.
-/

namespace Mixin

/-! ### Calls -/

instance (log : History) (e : Entry) : Decidable (log.Permits e) :=
  match e with
  | .type .. => isTrue trivial
  | .field f .. => inferInstanceAs (Decidable (f.owner ∈ _))
  | .method m .. => inferInstanceAs (Decidable (m.owner ∈ _))

/-- A call on `t` that leaves the table in the last place. -/
inductive Call (t : SymbolTable) : Entry → SymbolTable → Prop
  | type (d : ClassDecl) :
    Call t (.type d (t.declareClass d).id (t.declareClass d).diagnostics) (t.declareClass d).table
  | field (f : FieldInfo) :
    Call t (.field f (t.declareField f).id (t.declareField f).diagnostics) (t.declareField f).table
  | method (m : MethodInfo) :
    Call t (.method m (t.declareMethod m).id (t.declareMethod m).diagnostics)
      (t.declareMethod m).table

inductive Run : History → SymbolTable → Prop
  | start : Run [] .initial
  | call {log t e t'} (h : Run log t) (hcall : Call t e t') (hpermitted : History.Permits log e) :
    Run (log ++ [e]) t'

/-- Whether what a call declares is found by its name, or among the members of its owner. -/
def Entry.Accepted (t : SymbolTable) : Entry → Prop
  | type d id _ => t.lookup? d.name = some id
  | field f id _ => .field id ∈ (t.classInfo f.owner).members
  | method m id _ => .method id ∈ (t.classInfo m.owner).members

def SymbolTable.bindings (t : SymbolTable) : Bindings := ⟨t.lookup?, t.fieldNamed?, t.methodWith?⟩

/-! ### What a table holds -/

namespace SymbolTable

open History

variable {log : History} {t : SymbolTable} {e : Entry} {c : ClassId} {x : MemberInfo}

/-- The table holds what the calls in `log` declared. -/
structure Follows (log : History) (t : SymbolTable) : Prop where
  ids : t.classIds = log.types.map (·.2)
  classes : ∀ p ∈ log.types, t.classInfo p.2 = ⟨p.1, (log.kept p.2).map (·.2), none, []⟩
  stored : ∀ p ∈ log.members, t.Knows p.2 ∧ t.memberInfo p.2 = p.1
  owners : ∀ p ∈ log.members, p.1.owner ∈ t.classIds
  nodup : (log.members.map (·.2)).Nodup

theorem follows_initial : Follows [] .initial where
  ids := rfl
  classes := by
    intro p hp
    rw [List.mem_singleton.mp hp]
    rfl
  stored := by simp [History.members]
  owners := by simp [History.members]
  nodup := List.nodup_nil

theorem classIds_declareClass (t : SymbolTable) (d : ClassDecl) :
    (t.declareClass d).table.classIds = t.classIds ++ [(t.declareClass d).id] := by
  simp [classIds, declareClass, List.range_succ]

theorem classInfo_declareClass_self (t : SymbolTable) (d : ClassDecl) :
    (t.declareClass d).table.classInfo (t.declareClass d).id = ⟨d, [], none, []⟩ := by
  simp [classInfo, declareClass]

theorem classInfo_declareClass_of_mem (d : ClassDecl) (hc : c ∈ t.classIds) :
    (t.declareClass d).table.classInfo c = t.classInfo c := by
  have hne : c.index ≠ t.classes.size := Nat.ne_of_lt (mem_classIds.mp hc)
  simp [classInfo, declareClass, Array.getElem?_push, hne]

theorem id_declareClass_notMem (t : SymbolTable) (d : ClassDecl) :
    (t.declareClass d).id ∉ t.classIds := by
  rw [mem_classIds]
  exact Nat.lt_irrefl _

theorem Follows.type (h : Follows log t) (d : ClassDecl) (ds : List Diagnostic) :
    Follows (log ++ [.type d (t.declareClass d).id ds]) (t.declareClass d).table := by
  have htypes : types (log ++ [.type d (t.declareClass d).id ds]) =
      log.types ++ [(d, (t.declareClass d).id)] := types_concat ..
  have hmembers : members (log ++ [.type d (t.declareClass d).id ds]) = log.members := by
    rw [members_concat]
    exact List.append_nil _
  have hkept : ∀ c, kept (log ++ [.type d (t.declareClass d).id ds]) c = log.kept c :=
    kept_of_member?_eq_none rfl
  refine ⟨?_, ?_, ?_, ?_, ?_⟩
  · rw [htypes, classIds_declareClass, h.ids, List.map_append]
    rfl
  · intro p hp
    rw [htypes, List.mem_append, List.mem_singleton] at hp
    rw [hkept]
    rcases hp with hp | rfl
    · have hid : p.2 ∈ t.classIds := h.ids ▸ List.mem_map_of_mem hp
      rw [classInfo_declareClass_of_mem d hid]
      exact h.classes p hp
    · -- Nothing can have been declared for an identifier that is new.
      rw [classInfo_declareClass_self, kept_eq_nil fun q hq heq => ?_]
      · rfl
      · have howner : q.1.owner = (t.declareClass d).id := heq
        exact id_declareClass_notMem t d (howner ▸ h.owners q hq)
  · rw [hmembers]
    exact h.stored
  · rw [hmembers, classIds_declareClass]
    exact fun p hp => List.mem_append_left _ (h.owners p hp)
  · rw [hmembers]
    exact h.nodup

/-! ### Declaring members -/

theorem Follows.mem_classIds_iff (h : Follows log t) : c ∈ t.classIds ↔ log.Returned c := by
  rw [h.ids]
  rfl

theorem Follows.members_eq (h : Follows log t) (c : ClassId) :
    (t.classInfo c).members = (log.kept c).map (·.2) := by
  by_cases hc : c ∈ t.classIds
  · obtain ⟨p, hp, rfl⟩ := List.mem_map.mp (h.ids ▸ hc)
    rw [h.classes p hp]
  · have hnone : log.kept c = [] := kept_eq_nil fun p hp heq => hc (heq ▸ h.owners p hp)
    rw [classInfo_eq_default_of_notMem hc, hnone]
    rfl

theorem Follows.memberInfos (h : Follows log t) (c : ClassId) :
    t.memberInfos c = (log.kept c).map (·.1) := by
  rw [SymbolTable.memberInfos, h.members_eq, List.map_map]
  exact List.map_congr_left fun p hp => (h.stored p (mem_members_of_mem_kept hp).1).2

theorem Follows.pairwise (h : Follows log t) (c : ClassId) :
    (t.memberInfos c).Pairwise fun m m' => ¬ m.slot.Clashes m'.slot := by
  rw [h.memberInfos, List.pairwise_map]
  refine (List.pairwise_map.mp (log.nodup_keys_kept c)).imp fun hne hclash => ?_
  exact hne (Slot.clashes_iff.mp hclash)

theorem Follows.collision? (h : Follows log t) (x : MemberInfo) :
    t.collision? x = log.memberObstacle? x := by
  have hinfos := h.memberInfos x.owner
  rw [memberObstacle?]
  cases hfound : (log.kept x.owner).find? fun p => p.1.slot.Clashes x.slot with
  | none =>
    have hfree := List.find?_eq_none.mp hfound
    rw [Option.map_none, ← Option.not_isSome_iff_eq_none, collision?_isSome, hinfos]
    rintro ⟨m, hm, hkey⟩
    obtain ⟨p, hp, rfl⟩ := List.mem_map.mp hm
    exact hfree p hp (decide_eq_true (Slot.clashes_iff.mpr hkey))
  | some p =>
    have hp := List.mem_of_find?_eq_some hfound
    have hclash : p.1.slot.Clashes x.slot := by simpa using List.find?_some hfound
    have hkey := Slot.clashes_iff.mp hclash
    have hsome : (t.collision? x).isSome :=
      collision?_isSome.mpr ⟨p.1, hinfos ▸ List.mem_map_of_mem hp, hkey⟩
    obtain ⟨site, hsite⟩ := Option.isSome_iff_exists.mp hsome
    -- The table may look for members in another order, but only one has the key of `x`.
    obtain ⟨m, hm, hkey', rfl⟩ := exists_of_collision? hsite
    rw [hinfos] at hm
    obtain ⟨q, hq, rfl⟩ := List.mem_map.mp hm
    obtain rfl : q = p := eq_of_clashes hq hp (Slot.clashes_iff.mpr (hkey'.trans hkey.symm))
    exact hsite

theorem knows_of_extension {t' : SymbolTable} (hf : t.fields.toList <+: t'.fields.toList)
    (hm : t.methods.toList <+: t'.methods.toList) {m : MemberId} (h : t.Knows m) : t'.Knows m := by
  have hfields := hf.length_le
  have hmethods := hm.length_le
  simp only [Array.length_toList] at hfields hmethods
  cases m with
  | field id => exact Nat.lt_of_lt_of_le h hfields
  | method id => exact Nat.lt_of_lt_of_le h hmethods

theorem not_knows_nextId (t : SymbolTable) (x : MemberInfo) : ¬ t.Knows (t.nextId x) := by
  cases x <;> exact Nat.lt_irrefl _

theorem stored_declareInfo (t : SymbolTable) (x : MemberInfo) :
    (t.declareInfo x).1.Knows (t.nextId x) ∧ (t.declareInfo x).1.memberInfo (t.nextId x) = x := by
  have hpush := knows_nextId t x
  cases hfound : t.collision? x with
  | some previous =>
    rw [declareInfo_of_collision hfound]
    exact ⟨hpush, memberInfo_nextId t x⟩
  | none =>
    have hgrows := grows_addMember x.owner hpush
    rw [declareInfo_of_free hfound]
    exact ⟨knows_of_extension hgrows.fields hgrows.methods hpush,
      (memberInfo_of_extension hgrows.fields hgrows.methods hpush).trans (memberInfo_nextId t x)⟩

theorem Follows.members_declareInfo (h : Follows log t) (howner : x.owner ∈ t.classIds) :
    ((t.declareInfo x).1.classInfo x.owner).members =
      (keepNext (log.kept x.owner) (x, t.nextId x)).map (·.2) := by
  have hcollision := h.collision? x
  have hold : ((t.push x).classInfo x.owner).members = (log.kept x.owner).map (·.2) := by
    cases x <;> exact h.members_eq _
  by_cases hclash : ∃ p ∈ log.kept x.owner, p.1.slot.Clashes x.slot
  · obtain ⟨previous, hfound⟩ := Option.isSome_iff_exists.mp (memberObstacle?_isSome.mpr hclash)
    rw [← hcollision] at hfound
    rw [declareInfo_of_collision hfound, keepNext, if_pos hclash, hold]
  · have hfound := Option.not_isSome_iff_eq_none.mp (memberObstacle?_isSome.not.mpr hclash)
    rw [← hcollision] at hfound
    have hmem : x.owner ∈ (t.push x).classIds := by cases x <;> exact howner
    rw [declareInfo_of_free hfound, members_addMember hmem, keepNext, if_neg hclash, hold,
      List.map_append]
    rfl

theorem Follows.member (h : Follows log t) (howner : log.Returned x.owner)
    (htype : e.type? = none) (hmember : e.member? = some (x, t.nextId x)) :
    Follows (log ++ [e]) (t.declareInfo x).1 := by
  have hgrows := grows_declareInfo t x
  have hids : (t.declareInfo x).1.classIds = t.classIds := by
    rw [classIds, classIds, hgrows.size]
  have htypes : types (log ++ [e]) = log.types := by
    rw [types_concat, htype]
    exact List.append_nil _
  have hmembers : members (log ++ [e]) = log.members ++ [(x, t.nextId x)] := by
    rw [members_concat, hmember]
    rfl
  refine ⟨?_, ?_, ?_, ?_, ?_⟩
  · rw [hids, htypes, h.ids]
  · rw [htypes]
    intro p hp
    rw [hgrows.head, h.classes p hp]
    by_cases hc : x.owner = p.2
    · have hlist := h.members_declareInfo (h.mem_classIds_iff.mpr howner)
      rw [← kept_owner hmember] at hlist
      rw [← hc, hlist]
    · rw [hgrows.others p.2 fun heq => hc heq.symm, kept_of_ne hmember hc, h.classes p hp]
  · rw [hmembers, List.forall_mem_append]
    refine ⟨fun p hp => ?_, ?_⟩
    · obtain ⟨hknown, hinfo⟩ := h.stored p hp
      exact ⟨knows_of_extension hgrows.fields hgrows.methods hknown,
        (memberInfo_of_extension hgrows.fields hgrows.methods hknown).trans hinfo⟩
    · rw [List.forall_mem_singleton]
      exact stored_declareInfo t x
  · rw [hmembers, hids, List.forall_mem_append]
    exact ⟨h.owners, List.forall_mem_singleton.mpr (h.mem_classIds_iff.mpr howner)⟩
  · rw [hmembers, List.map_append]
    refine h.nodup.append (List.nodup_singleton _) (List.disjoint_singleton.mpr fun hmem => ?_)
    -- All identifiers returned so far are known, and the next one is not.
    obtain ⟨p, hp, hid⟩ := List.mem_map.mp hmem
    have hnext : p.2 = t.nextId x := hid
    exact not_knows_nextId t x (hnext ▸ (h.stored p hp).1)

end SymbolTable

/-! ### Calls and what they report -/

namespace SymbolTable

open History

variable {log : History} {t t' : SymbolTable} {e : Entry} {x : MemberInfo}

theorem Follows.call (h : Follows log t) (hcall : Call t e t') (hpermitted : log.Permits e) :
    Follows (log ++ [e]) t' := by
  cases hcall with
  | type d => exact h.type d _
  | field f =>
    refine h.member (x := .field f) hpermitted rfl ?_
    rw [id_declareField]
    rfl
  | method m =>
    refine h.member (x := .method m) hpermitted rfl ?_
    rw [id_declareMethod]
    rfl

theorem Follows.lookup? (h : Follows log t) (name : String) :
    t.lookup? name = (log.typeNamed? name).map (·.2) := by
  have hnames : t.names = log.types.map fun p => p.1.name := by
    rw [names_eq_map, h.ids, List.map_map]
    exact List.map_congr_left fun p hp => by rw [Function.comp, h.classes p hp]
  -- Identifiers of types are their positions, so finding the first position finds the type.
  have hindex : ∀ {i : Nat} {p : ClassDecl × ClassId}, log.types[i]? = some p → p.2 = ⟨i⟩ := by
    intro i p hp
    have hid : t.classIds[i]? = some p.2 := by rw [h.ids, List.getElem?_map, hp, Option.map_some]
    obtain ⟨hlt, hid⟩ := List.getElem?_eq_some_iff.mp hid
    simpa [classIds] using hid.symm
  rw [lookup?_eq_findIdx?, hnames, List.findIdx?_map, typeNamed?,
    List.find?_eq_bind_findIdx?_getElem?]
  simp only [Function.comp_def]
  cases hfound : log.types.findIdx? fun p => p.1.name == name with
  | none => rfl
  | some i =>
    obtain ⟨hlt, -⟩ := List.findIdx?_eq_some_iff_getElem.mp hfound
    have hp := List.getElem?_eq_getElem hlt
    rw [Option.map_some, Option.bind_some, hp, Option.map_some, hindex hp]

theorem find?_filterMap_ids {α : Type} {f : MemberId → Option α} {p : α → Bool}
    {g : MemberInfo × MemberId → Option α} {l : List (MemberInfo × MemberId)}
    (h : ∀ q ∈ l, g q = (f q.2).filter p) :
    ((l.map (·.2)).filterMap f).find? p = l.findSome? g := by
  induction l with
  | nil => rfl
  | cons q l ih =>
    rw [List.forall_mem_cons] at h
    rw [List.findSome?_cons, h.1, List.map_cons]
    cases hid : f q.2 with
    | none =>
      rw [List.filterMap_cons_none hid]
      exact ih h.2
    | some id =>
      rw [List.filterMap_cons_some hid]
      cases htest : p id with
      | true => rw [List.find?_cons_of_pos htest, Option.filter_some_pos htest]
      | false =>
        rw [List.find?_cons_of_neg (by simp [htest]), Option.filter_some_neg (by simp [htest])]
        exact ih h.2

theorem Follows.bindings (h : Follows log t) : t.bindings = log.scopes := by
  have hstored (c : ClassId) : ∀ p ∈ log.kept c, t.memberInfo p.2 = p.1 :=
    fun p hp => (h.stored p (mem_members_of_mem_kept hp).1).2
  refine Bindings.ext (funext h.lookup?) (funext fun c => funext fun name => ?_)
    (funext fun c => funext fun signature => ?_)
  · change (t.classInfo c).fields.find? _ = (log.kept c).findSome? _
    rw [ClassInfo.fields, h.members_eq]
    refine find?_filterMap_ids fun p hp => ?_
    rw [fieldId?, ← hstored c p hp]
    cases p.2 <;> simp [memberInfo, MemberInfo.slot, MemberId.field?, Option.filter]
  · change (t.classInfo c).methods.find? _ = (log.kept c).findSome? _
    rw [ClassInfo.methods, h.members_eq]
    refine find?_filterMap_ids fun p hp => ?_
    rw [methodId?, ← hstored c p hp]
    cases p.2 <;> simp [memberInfo, MemberInfo.slot, MemberId.method?, Option.filter]

theorem Follows.exists_kept (h : Follows log t) {c : ClassId} {m : MemberId}
    (hm : m ∈ (t.classInfo c).members) : (t.memberInfo m, m) ∈ log.kept c := by
  rw [h.members_eq] at hm
  obtain ⟨p, hp, rfl⟩ := List.mem_map.mp hm
  rw [(h.stored p (mem_members_of_mem_kept hp).1).2]
  exact hp

theorem Follows.eq_of_clashes (h : Follows log t) {c : ClassId} {m m' : MemberId}
    (hm : m ∈ (t.classInfo c).members) (hm' : m' ∈ (t.classInfo c).members)
    (hclash : (t.memberInfo m).slot.Clashes (t.memberInfo m').slot) : m = m' :=
  congrArg Prod.snd (History.eq_of_clashes (h.exists_kept hm) (h.exists_kept hm') hclash)

theorem find?_eq_some_iff_of_unique {α : Type} {p : α → Bool} {l : List α} {a : α}
    (h : ∀ b ∈ l, a ∈ l → p b → p a → b = a) : l.find? p = some a ↔ a ∈ l ∧ p a := by
  refine ⟨fun ha => ⟨List.mem_of_find?_eq_some ha, List.find?_some ha⟩, fun ⟨ha, hp⟩ => ?_⟩
  obtain ⟨b, hb⟩ := Option.isSome_iff_exists.mp (List.find?_isSome.mpr ⟨a, ha, hp⟩)
  rw [hb, h b (List.mem_of_find?_eq_some hb) ha (List.find?_some hb) hp]

theorem Follows.fieldNamed?_iff (h : Follows log t) {c : ClassId} {name : String} {id : FieldId} :
    t.fieldNamed? c name = some id ↔
      .field id ∈ (t.classInfo c).members ∧ (t.fieldInfo id).name = name := by
  rw [fieldNamed?, find?_eq_some_iff_of_unique, mem_fields, beq_iff_eq]
  intro id' hid' hid hname' hname
  have hclash := (beq_iff_eq.mp hname').trans (beq_iff_eq.mp hname).symm
  exact MemberId.field.inj (h.eq_of_clashes (mem_fields.mp hid') (mem_fields.mp hid) hclash)

theorem Follows.methodWith?_iff (h : Follows log t) {c : ClassId} {signature : Signature}
    {id : MethodId} :
    t.methodWith? c signature = some id ↔
      .method id ∈ (t.classInfo c).members ∧ (t.methodInfo id).signature = signature := by
  rw [methodWith?, find?_eq_some_iff_of_unique, mem_methods, beq_iff_eq]
  intro id' hid' hid hsignature' hsignature
  have hclash := (beq_iff_eq.mp hsignature').trans (beq_iff_eq.mp hsignature).symm
  exact MemberId.method.inj (h.eq_of_clashes (mem_methods.mp hid') (mem_methods.mp hid) hclash)

theorem Follows.rejected_iff {before after : History} (h : Follows (before ++ e :: after) t) :
    (before.obstacle? e).isSome ↔ ¬ e.Accepted t := by
  have hids : ((types (before ++ e :: after)).map (·.2)).Nodup := h.ids ▸ t.nodup_classIds
  cases e with
  | type d id ds =>
    rw [Entry.Accepted, h.lookup?, typeNamed?_iff rfl hids, obstacle?, Option.isSome_map,
      ← Option.not_isSome_iff_eq_none, not_not]
  | field f id ds =>
    rw [Entry.Accepted, h.members_eq, obstacle?, memberObstacle?_isSome]
    exact iff_not_comm.mp (mem_kept_iff (x := .field f) rfl h.nodup)
  | method m id ds =>
    rw [Entry.Accepted, h.members_eq, obstacle?, memberObstacle?_isSome]
    exact iff_not_comm.mp (mem_kept_iff (x := .method m) rfl h.nodup)

theorem Follows.reports_member (h : Follows log t) (x : MemberInfo) :
    (t.declareInfo x).2 = x.parameterReports ++ (log.memberObstacle? x).toList.map fun previous =>
      .duplicate x.entity x.name (x.site.getD .topOfFile) previous := by
  rw [← h.collision?]
  cases hfound : t.collision? x with
  | some previous => rw [declareInfo_of_collision hfound]; rfl
  | none => rw [declareInfo_of_free hfound]; simp

theorem Follows.diagnostics (h : Follows log t) (hcall : Call t e t') :
    e.diagnostics = log.reports e := by
  cases hcall with
  | type d =>
    change (t.declareClass d).diagnostics = _
    rw [declareClass, h.lookup?, reports, obstacle?]
    cases hfound : log.typeNamed? d.name with
    | none => rfl
    | some p =>
      have hsite := h.classes p (List.mem_of_find?_eq_some hfound)
      simp [hsite, Entry.parameterNames, Entry.entity, Entry.name, Entry.site, repeatedNames]
  | field f => exact h.reports_member (.field f)
  | method m =>
    refine (h.reports_member (.method m)).trans ?_
    rw [MemberInfo.parameterReports, checkParameters_eq]
    rfl

end SymbolTable

/-! ### Runs -/

namespace Run

open History SymbolTable

variable {log before after : History} {t : SymbolTable} {e : Entry}

theorem follows (h : Run log t) : Follows log t := by
  induction h with
  | start => exact follows_initial
  | call _ hcall hpermitted ih => exact ih.call hcall hpermitted

theorem exists_of_concat (h : Run (log ++ [e]) t) :
    ∃ t₀, Run log t₀ ∧ Call t₀ e t := by
  generalize hall : log ++ [e] = all at h
  cases h with
  | start => simp at hall
  | call h hcall =>
    obtain ⟨rfl, he⟩ := List.append_inj' hall rfl
    obtain rfl := List.singleton_inj.mp he
    exact ⟨_, h, hcall⟩

theorem exists_of_append (h : Run (before ++ after) t) : ∃ t₀, Run before t₀ := by
  induction after using List.reverseRecOn generalizing t with
  | nil => exact ⟨t, by simpa using h⟩
  | append_singleton after e ih =>
    rw [← List.append_assoc] at h
    obtain ⟨t₀, h₀, -⟩ := h.exists_of_concat
    exact ih h₀

theorem diagnostics_of_append (h : Run (before ++ e :: after) t) :
    e.diagnostics = before.reports e := by
  rw [← List.singleton_append, ← List.append_assoc] at h
  obtain ⟨t', h'⟩ := h.exists_of_append
  obtain ⟨t₀, h₀, hcall⟩ := h'.exists_of_concat
  exact h₀.follows.diagnostics hcall

end Run

/-- What is to be said of a table after the calls in `log`. -/
structure SymbolTable.Reflects (log : History) (t : SymbolTable) : Prop where
  /-- A name is bound to the first type declared with it, `Any` to the root. -/
  bound : ∀ name, t.lookup? name = (log.typeNamed? name).map (·.2)
  /-- What a name was bound to after some of the calls it is bound to still. -/
  lasting : ∀ before t₀, Run before t₀ → before <+: log → t₀.bindings.Extends t.bindings
  /-- No two members of a type clash. -/
  apart : ∀ c, (t.memberInfos c).Pairwise fun m m' => ¬ m.slot.Clashes m'.slot
  /-- Members are known, and as members of the type that lists them. -/
  listed : ∀ c, ∀ m ∈ (t.classInfo c).members, t.Knows m ∧ (t.memberInfo m).owner = c
  /-- Fields are found by their names and methods by their signatures, and nothing else is. -/
  fieldNamed : ∀ c name id, t.fieldNamed? c name = some id ↔
    .field id ∈ (t.classInfo c).members ∧ (t.fieldInfo id).name = name
  methodWith : ∀ c signature id, t.methodWith? c signature = some id ↔
    .method id ∈ (t.classInfo c).members ∧ (t.methodInfo id).signature = signature
  /-- The same is found in scopes to which each call adds what clashes with nothing in them. -/
  scopes : t.bindings = log.foldl Bindings.bind .initial
  /-- The members of a type are its declarations without those that clash with one kept before. -/
  members : ∀ c, (t.classInfo c).members = (log.kept c).map (·.2)
  /-- Identifiers are not returned twice. -/
  fresh : (log.types.map (·.2)).Nodup ∧ (log.members.map (·.2)).Nodup
  /-- All that was declared is known as it was declared, whether or not it clashed. -/
  types : ∀ p ∈ log.types, p.2 ∈ t.classIds ∧
    t.classInfo p.2 = ⟨p.1, (log.kept p.2).map (·.2), none, []⟩
  stored : ∀ p ∈ log.members, t.Knows p.2 ∧ t.memberInfo p.2 = p.1
  /-- A call reports the declaration that stood in its way, if there was one, and the parameters
  whose names were repeated. -/
  reported : ∀ (before : History) e after, log = before ++ e :: after →
    e.diagnostics = before.reports e
  /-- What found a declaration in its way, and nothing else, was not accepted. -/
  rejected : ∀ (before : History) e after, log = before ++ e :: after →
    ((before.obstacle? e).isSome ↔ ¬ e.Accepted t)

open SymbolTable in
/-- After any calls a table reflects these calls. -/
theorem run_reflects {log : History} {t : SymbolTable} (h : Run log t) : t.Reflects log := by
  have hfollows := h.follows
  exact {
    bound := hfollows.lookup?
    lasting := by
      intro before t₀ h₀ hbefore
      rw [h₀.follows.bindings, hfollows.bindings]
      exact History.extends_scopes hbefore
    apart := hfollows.pairwise
    listed := by
      intro c m hm
      obtain ⟨hmem, howner⟩ := History.mem_members_of_mem_kept (hfollows.exists_kept hm)
      exact ⟨(hfollows.stored _ hmem).1, howner⟩
    fieldNamed := fun _ _ _ => hfollows.fieldNamed?_iff
    methodWith := fun _ _ _ => hfollows.methodWith?_iff
    scopes := hfollows.bindings.trans log.scopes_eq_foldl
    members := hfollows.members_eq
    fresh := ⟨hfollows.ids ▸ t.nodup_classIds, hfollows.nodup⟩
    types := fun p hp => ⟨hfollows.ids ▸ List.mem_map_of_mem hp, hfollows.classes p hp⟩
    stored := hfollows.stored
    reported := by
      rintro before e after rfl
      exact h.diagnostics_of_append
    rejected := by
      rintro before e after rfl
      exact hfollows.rejected_iff }

open SymbolTable in
/-- A type of a taken name and one named like the root, with members of each that clash and members
that do not. -/
theorem run_reflects_clashes :
    ∃ log t, Run log t ∧
      log.map Entry.name = ["A", "x", "x", "A", "Any", "x", "x", "x", "y"] ∧
      log.map (fun e => e.diagnostics.length) = [0, 0, 1, 1, 1, 1, 1, 0, 0] ∧
      (t.classInfo ⟨1⟩).members = [.method ⟨0⟩, .method ⟨1⟩] ∧
      t.Reflects log := by
  let site (line : Nat) : Option Span := some ⟨.user, line, line + 1, line, 1⟩
  let type (name : String) (kind : TypeKind) (line : Nat) : ClassDecl :=
    ⟨name, kind, .empty, [], [], site line⟩
  let field (name : String) (owner line : Nat) : FieldInfo :=
    ⟨name, none, .val, false, true, ⟨owner⟩, site line⟩
  let method (name : String) (parameters : List String) (owner line : Nat) : MethodInfo :=
    ⟨name, .empty, parameters.map fun p => ⟨⟨p, default⟩, none⟩, none, true, ⟨owner⟩, site line⟩
  have h₁ := Run.call .start (.type (type "A" .«class» 1)) (by decide)
  have h₂ := h₁.call (.method (method "x" [] 1 2)) (by decide)
  have h₃ := h₂.call (.field (field "x" 1 3)) (by decide)
  have h₄ := h₃.call (.type (type "A" .trait 4)) (by decide)
  have h₅ := h₄.call (.type (type "Any" .object 5)) (by decide)
  have h₆ := h₅.call (.method (method "x" ["p", "p"] 1 6)) (by decide)
  have h₇ := h₆.call (.method (method "x" ["p", "q"] 1 7)) (by decide)
  have h₈ := h₇.call (.field (field "x" 2 8)) (by decide)
  have h₉ := h₈.call (.field (field "y" 0 9)) (by decide)
  exact ⟨_, _, h₉, by decide +kernel, by decide +kernel, by decide +kernel, run_reflects h₉⟩

end Mixin
