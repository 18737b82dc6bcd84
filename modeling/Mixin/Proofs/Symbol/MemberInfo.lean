import Mixin.Proofs.Symbol.Members

/-!
# What is known of the members of a type

A field and a method without parameters have the same key if they share a name, and so have two
fields of one name and two methods of one signature. Fields and methods are declared alike: one
whose key a member of the type has already is reported with the place of such a member, any other
one becomes the last member (`declareInfo_of_collision`, `declareInfo_of_free`).
-/

namespace Mixin

def Slot.key : Slot → Signature
  | field name => ⟨name, 0⟩
  | method signature => signature

theorem Slot.clashes_iff {s s' : Slot} : s.Clashes s' ↔ s.key = s'.key := by
  cases s <;> cases s' <;> simp [Clashes, key, eq_comm]

/-! ### What is known of members -/

inductive MemberInfo where
  | field (f : FieldInfo)
  | method (m : MethodInfo)

namespace MemberInfo

def slot : MemberInfo → Slot
  | field f => .field f.name
  | method m => .method m.signature

def site : MemberInfo → Option Span
  | field f => f.site
  | method m => m.site

def owner : MemberInfo → ClassId
  | field f => f.owner
  | method m => m.owner

def entity : MemberInfo → String
  | field _ => "field"
  | method _ => "method"

def name : MemberInfo → String
  | field f => f.name
  | method m => m.name

def parameterReports : MemberInfo → List Diagnostic
  | field _ => []
  | method m => SymbolTable.checkParameters (m.parameters.map (·.name))

def method? : MemberInfo → Option MethodInfo
  | field _ => none
  | method m => some m

def fieldName? : MemberInfo → Option String
  | field f => some f.name
  | method _ => none

end MemberInfo

namespace SymbolTable

def memberInfo (t : SymbolTable) : MemberId → MemberInfo
  | .field id => .field (t.fieldInfo id)
  | .method id => .method (t.methodInfo id)

def memberInfos (t : SymbolTable) (c : ClassId) : List MemberInfo :=
  (t.classInfo c).members.map t.memberInfo

variable {t t' : SymbolTable} {owner c : ClassId}

theorem slots_eq_map (t : SymbolTable) (c : ClassId) :
    t.slots c = (t.memberInfos c).map (·.slot) := by
  rw [slots, memberInfos, List.map_map]
  refine List.map_congr_left fun m _ => ?_
  cases m <;> rfl

theorem methodInfos_eq_filterMap (t : SymbolTable) (c : ClassId) :
    t.methodInfos c = (t.memberInfos c).filterMap MemberInfo.method? := by
  rw [methodInfos, memberInfos, ClassInfo.methods, List.map_filterMap, List.filterMap_map]
  refine List.filterMap_congr fun m _ => ?_
  cases m <;> rfl

theorem fieldNames_eq_filterMap (t : SymbolTable) (c : ClassId) :
    ((t.classInfo c).fields.map fun f => (t.fieldInfo f).name) =
      (t.memberInfos c).filterMap MemberInfo.fieldName? := by
  rw [memberInfos, ClassInfo.fields, List.map_filterMap, List.filterMap_map]
  refine List.filterMap_congr fun m _ => ?_
  cases m <;> rfl

/-! ### Declaring a member -/

/-- The place of the member with which a further one collides, if it does. -/
def collision? (t : SymbolTable) : MemberInfo → Option (Option Span)
  | .field f => t.fieldCollision? f.owner f.name
  | .method m => t.methodCollision? m.owner m.signature

def declareInfo (t : SymbolTable) : MemberInfo → SymbolTable × List Diagnostic
  | .field f => ((t.declareField f).table, (t.declareField f).diagnostics)
  | .method m => ((t.declareMethod m).table, (t.declareMethod m).diagnostics)

def push (t : SymbolTable) : MemberInfo → SymbolTable
  | .field f => t.pushField f
  | .method m => t.pushMethod m

def nextId (t : SymbolTable) : MemberInfo → MemberId
  | .field _ => .field ⟨t.fields.size⟩
  | .method _ => .method ⟨t.methods.size⟩

/-- Fields and methods are declared alike: what collides is reported, all else becomes a member. -/
theorem declareInfo_of_collision {x : MemberInfo} {previous : Option Span}
    (h : t.collision? x = some previous) :
    t.declareInfo x = (t.push x, x.parameterReports ++
      [.duplicate x.entity x.name (x.site.getD .topOfFile) previous]) := by
  cases x with
  | field f =>
    have hfound : t.fieldCollision? f.owner f.name = some previous := h
    rw [declareInfo, declareField, hfound]
    rfl
  | method m =>
    have hfound : t.methodCollision? m.owner m.signature = some previous := h
    rw [declareInfo, declareMethod, hfound]
    rfl

theorem declareInfo_of_free {x : MemberInfo} (h : t.collision? x = none) :
    t.declareInfo x = ((t.push x).addMember x.owner (t.nextId x), x.parameterReports) := by
  cases x with
  | field f =>
    have hfound : t.fieldCollision? f.owner f.name = none := h
    rw [declareInfo, declareField, hfound]
    rfl
  | method m =>
    have hfound : t.methodCollision? m.owner m.signature = none := h
    rw [declareInfo, declareMethod, hfound]
    rfl

theorem collision?_isSome_iff {x : MemberInfo} :
    (t.collision? x).isSome ↔ ∃ s ∈ t.slots x.owner, s.Clashes x.slot := by
  cases x with
  | field f => exact fieldCollision?_isSome
  | method m => exact methodCollision?_isSome

/-- A member is reported if its slot clashes with an occupied one, and becomes one of the type if
not. Parameters are checked in either case. -/
theorem declareInfo_cases (t : SymbolTable) (x : MemberInfo) :
    ((∃ s ∈ t.slots x.owner, s.Clashes x.slot) ∧ ∃ d, d.isError = true ∧
        t.declareInfo x = (t.push x, x.parameterReports ++ [d])) ∨
      ((∀ s ∈ t.slots x.owner, ¬ s.Clashes x.slot) ∧
        t.declareInfo x = ((t.push x).addMember x.owner (t.nextId x), x.parameterReports)) := by
  cases hfound : t.collision? x with
  | some previous =>
    exact .inl ⟨collision?_isSome_iff.mp (by simp [hfound]), _, rfl,
      declareInfo_of_collision hfound⟩
  | none =>
    refine .inr ⟨fun s hs hclash => ?_, declareInfo_of_free hfound⟩
    have hsome := collision?_isSome_iff.mpr ⟨s, hs, hclash⟩
    simp [hfound] at hsome

theorem grows_push (t : SymbolTable) (owner : ClassId) (x : MemberInfo) :
    Grows owner t (t.push x) := by
  cases x with
  | field f => exact grows_pushField t owner f
  | method m => exact grows_pushMethod t owner m

theorem knows_nextId (t : SymbolTable) (x : MemberInfo) : (t.push x).Knows (t.nextId x) := by
  cases x <;> simp [push, pushField, pushMethod, nextId, Knows]

theorem grows_declareInfo (t : SymbolTable) (x : MemberInfo) :
    Grows x.owner t (t.declareInfo x).1 := by
  have hpush := grows_push t x.owner x
  rcases declareInfo_cases t x with ⟨-, d, -, heq⟩ | ⟨-, heq⟩
  · rw [heq]
    exact hpush
  · rw [heq]
    exact hpush.trans (grows_addMember x.owner (knows_nextId t x))

theorem memberInfo_nextId (t : SymbolTable) (x : MemberInfo) :
    (t.push x).memberInfo (t.nextId x) = x := by
  cases x with
  | field f => simp [push, pushField, nextId, memberInfo, fieldInfo]
  | method m => simp [push, pushMethod, nextId, memberInfo, methodInfo]

theorem exists_of_fieldNamed? {name : String} {id : FieldId}
    (h : t.fieldNamed? owner name = some id) :
    ∃ m ∈ t.memberInfos owner, m.slot.key = ⟨name, 0⟩ ∧ m.site = (t.fieldInfo id).site := by
  have hmem := mem_fields.mp (List.mem_of_find?_eq_some h)
  have hname := List.find?_some h
  refine ⟨_, List.mem_map_of_mem hmem, ?_, rfl⟩
  rw [← beq_iff_eq.mp hname]
  rfl

theorem exists_of_methodWith? {signature : Signature} {id : MethodId}
    (h : t.methodWith? owner signature = some id) :
    ∃ m ∈ t.memberInfos owner, m.slot.key = signature ∧ m.site = (t.methodInfo id).site := by
  have hmem := mem_methods.mp (List.mem_of_find?_eq_some h)
  have hsignature := List.find?_some h
  exact ⟨_, List.mem_map_of_mem hmem, beq_iff_eq.mp hsignature, rfl⟩

theorem exists_of_fieldCollision? {name : String} {site : Option Span}
    (h : t.fieldCollision? owner name = some site) :
    ∃ m ∈ t.memberInfos owner, m.slot.key = ⟨name, 0⟩ ∧ m.site = site := by
  unfold fieldCollision? at h
  split at h
  next id hid =>
    obtain rfl := Option.some.inj h
    exact exists_of_fieldNamed? hid
  next =>
    obtain ⟨id, hid, rfl⟩ := Option.map_eq_some_iff.mp h
    exact exists_of_methodWith? hid

theorem exists_of_methodCollision? {signature : Signature} {site : Option Span}
    (h : t.methodCollision? owner signature = some site) :
    ∃ m ∈ t.memberInfos owner, m.slot.key = signature ∧ m.site = site := by
  unfold methodCollision? at h
  split at h
  next id hid =>
    obtain rfl := Option.some.inj h
    exact exists_of_methodWith? hid
  next =>
    split at h
    next harity =>
      obtain ⟨id, hid, rfl⟩ := Option.map_eq_some_iff.mp h
      rw [show signature = ⟨signature.name, 0⟩ by rw [← harity]]
      exact exists_of_fieldNamed? hid
    next => cases h

theorem exists_of_collision? {x : MemberInfo} {site : Option Span}
    (h : t.collision? x = some site) :
    ∃ m ∈ t.memberInfos x.owner, m.slot.key = x.slot.key ∧ m.site = site := by
  cases x with
  | field f => exact exists_of_fieldCollision? h
  | method m => exact exists_of_methodCollision? h

theorem collision?_isSome {x : MemberInfo} :
    (t.collision? x).isSome ↔ ∃ m ∈ t.memberInfos x.owner, m.slot.key = x.slot.key := by
  have hslots : (∃ m ∈ t.memberInfos x.owner, m.slot.key = x.slot.key) ↔
      ∃ s ∈ t.slots x.owner, s.Clashes x.slot := by
    simp only [slots_eq_map, List.mem_map, exists_exists_and_eq_and, Slot.clashes_iff]
  rw [hslots]
  exact collision?_isSome_iff

/-! ### Members of other types -/

theorem memberInfo_of_extension (hf : t.fields.toList <+: t'.fields.toList)
    (hm : t.methods.toList <+: t'.methods.toList) {m : MemberId} (h : t.Knows m) :
    t'.memberInfo m = t.memberInfo m := by
  cases m with
  | field id => exact congrArg MemberInfo.field (fieldInfo_of_extension hf h)
  | method id => exact congrArg MemberInfo.method (methodInfo_of_extension hm h)

theorem memberInfos_of_members (hf : t.fields.toList <+: t'.fields.toList)
    (hm : t.methods.toList <+: t'.methods.toList) (hk : t.MembersKnown)
    (hmembers : (t'.classInfo c).members = (t.classInfo c).members) :
    t'.memberInfos c = t.memberInfos c := by
  rw [memberInfos, memberInfos, hmembers]
  exact List.map_congr_left fun m hmem => memberInfo_of_extension hf hm (hk c m hmem)

theorem memberInfos_push (hk : t.MembersKnown) (x : MemberInfo) (c : ClassId) :
    (t.push x).memberInfos c = t.memberInfos c := by
  have hgrows := grows_push t c x
  refine memberInfos_of_members hgrows.fields hgrows.methods hk ?_
  cases x <;> rfl

theorem memberInfos_addMember (howner : owner ∈ t.classIds) (m : MemberId) :
    (t.addMember owner m).memberInfos owner = t.memberInfos owner ++ [t.memberInfo m] := by
  rw [memberInfos, memberInfos, members_addMember howner, List.map_append]
  rfl

theorem memberInfos_declareInfo {x : MemberInfo} (howner : x.owner ∈ t.classIds)
    (hk : t.MembersKnown) (h : t.collision? x = none) :
    (t.declareInfo x).1.memberInfos x.owner = t.memberInfos x.owner ++ [x] := by
  have hpushed : x.owner ∈ (t.push x).classIds := by
    rw [mem_classIds, (grows_push t x.owner x).size]
    exact mem_classIds.mp howner
  rw [declareInfo_of_free h, memberInfos_addMember hpushed, memberInfos_push hk, memberInfo_nextId]

end SymbolTable

end Mixin
