import Mixin.Proofs.Symbol.Table

/-!
# Declaring members

A member occupies a slot of its type: a field its name, a method its signature. A field and a method
without parameters that share a name clash, like two fields of one name and two methods of one
signature. A member collides exactly if its slot clashes with one that is occupied
(`fieldCollision?_isSome`, `methodCollision?_isSome`). Whether it does or not, declaring it changes
nothing but the members of its own type (`Grows`).
-/

namespace Mixin

inductive Slot where
  | field (name : String)
  | method (signature : Signature)
  deriving DecidableEq

namespace Slot

/-- Whether two slots cannot be occupied at once. -/
def Clashes : Slot → Slot → Prop
  | field a, field b => a = b
  | field a, method s => s = ⟨a, 0⟩
  | method s, field a => s = ⟨a, 0⟩
  | method s, method s' => s = s'

instance (s s' : Slot) : Decidable (s.Clashes s') :=
  match s, s' with
  | field a, field b => inferInstanceAs (Decidable (a = b))
  | field a, method s => inferInstanceAs (Decidable (s = ⟨a, 0⟩))
  | method s, field a => inferInstanceAs (Decidable (s = ⟨a, 0⟩))
  | method s, method s' => inferInstanceAs (Decidable (s = s'))

theorem clashes_field {s : Slot} {name : String} :
    s.Clashes (.field name) ↔ s = .field name ∨ s = .method ⟨name, 0⟩ := by
  cases s <;> simp [Clashes]

theorem clashes_method {s : Slot} {signature : Signature} :
    s.Clashes (.method signature) ↔
      s = .method signature ∨ signature.arity = 0 ∧ s = .field signature.name := by
  obtain ⟨name, arity⟩ := signature
  cases s <;> simp [Clashes, eq_comm, and_comm]

/-- The slots `added` can be occupied one after another when those in `occupied` are. -/
structure Admits (occupied added : List Slot) : Prop where
  apart : added.Pairwise fun s s' => ¬ s.Clashes s'
  free : ∀ s ∈ occupied, ∀ s' ∈ added, ¬ s.Clashes s'

theorem admits_nil (occupied : List Slot) : Admits occupied [] :=
  ⟨List.Pairwise.nil, by simp⟩

theorem admits_of_free {added : List Slot} :
    Admits [] added ↔ added.Pairwise fun s s' => ¬ s.Clashes s' :=
  ⟨fun h => h.apart, fun h => ⟨h, by simp⟩⟩

theorem admits_cons {occupied added : List Slot} {s : Slot} :
    Admits occupied (s :: added) ↔
      (∀ s' ∈ occupied, ¬ s'.Clashes s) ∧ Admits (occupied ++ [s]) added := by
  constructor
  · rintro ⟨hapart, hfree⟩
    rw [List.pairwise_cons] at hapart
    refine ⟨fun s' hs' => hfree s' hs' s (List.mem_cons_self ..), hapart.2, ?_⟩
    intro s' hs' s'' hs''
    rcases List.mem_append.mp hs' with hs' | hs'
    · exact hfree s' hs' s'' (List.mem_cons_of_mem _ hs'')
    · rw [List.mem_singleton.mp hs']
      exact hapart.1 s'' hs''
  · rintro ⟨hs, hapart, hfree⟩
    refine ⟨List.pairwise_cons.mpr ⟨fun s' hs' => ?_, hapart⟩, fun s' hs' s'' hs'' => ?_⟩
    · exact hfree s (List.mem_append_right _ (List.mem_singleton_self s)) s' hs'
    · rcases List.mem_cons.mp hs'' with rfl | hs''
      · exact hs s' hs'
      · exact hfree s' (List.mem_append_left _ hs') s'' hs''

theorem admits_append {occupied xs ys : List Slot} :
    Admits occupied (xs ++ ys) ↔ Admits occupied xs ∧ Admits (occupied ++ xs) ys := by
  induction xs generalizing occupied with
  | nil => simp [admits_nil]
  | cons s xs ih =>
    rw [List.cons_append, admits_cons, admits_cons, ih, and_assoc, List.append_assoc]
    rfl

end Slot

namespace SymbolTable

variable {t : SymbolTable} {owner : ClassId}

def slotOf (t : SymbolTable) : MemberId → Slot
  | .field id => .field (t.fieldInfo id).name
  | .method id => .method (t.methodInfo id).signature

def slots (t : SymbolTable) (owner : ClassId) : List Slot :=
  (t.classInfo owner).members.map t.slotOf

theorem mem_fields {c : ClassInfo} {id : FieldId} : id ∈ c.fields ↔ .field id ∈ c.members := by
  simp only [ClassInfo.fields, List.mem_filterMap]
  constructor
  · rintro ⟨m, hm, hid⟩
    cases m <;> simp_all [MemberId.field?]
  · intro h
    exact ⟨_, h, rfl⟩

theorem mem_methods {c : ClassInfo} {id : MethodId} : id ∈ c.methods ↔ .method id ∈ c.members := by
  simp only [ClassInfo.methods, List.mem_filterMap]
  constructor
  · rintro ⟨m, hm, hid⟩
    cases m <;> simp_all [MemberId.method?]
  · intro h
    exact ⟨_, h, rfl⟩

theorem fieldNamed?_isSome {name : String} :
    (t.fieldNamed? owner name).isSome ↔ .field name ∈ t.slots owner := by
  simp only [fieldNamed?, List.find?_isSome, mem_fields, beq_iff_eq, slots, List.mem_map]
  constructor
  · rintro ⟨id, hid, hname⟩
    exact ⟨_, hid, congrArg Slot.field hname⟩
  · rintro ⟨m, hm, hslot⟩
    cases m with
    | field id => exact ⟨id, hm, Slot.field.inj hslot⟩
    | method id => cases hslot

theorem methodWith?_isSome {signature : Signature} :
    (t.methodWith? owner signature).isSome ↔ .method signature ∈ t.slots owner := by
  simp only [methodWith?, List.find?_isSome, mem_methods, beq_iff_eq, slots, List.mem_map]
  constructor
  · rintro ⟨id, hid, hsignature⟩
    exact ⟨_, hid, congrArg Slot.method hsignature⟩
  · rintro ⟨m, hm, hslot⟩
    cases m with
    | field id => cases hslot
    | method id => exact ⟨id, hm, Slot.method.inj hslot⟩

theorem fieldCollision?_isSome {name : String} :
    (t.fieldCollision? owner name).isSome ↔ ∃ s ∈ t.slots owner, s.Clashes (.field name) := by
  have hclash : (∃ s ∈ t.slots owner, s.Clashes (.field name)) ↔
      .field name ∈ t.slots owner ∨ .method ⟨name, 0⟩ ∈ t.slots owner := by
    simp only [Slot.clashes_field, and_or_left, exists_or, exists_eq_right]
  rw [hclash, ← fieldNamed?_isSome, ← methodWith?_isSome, fieldCollision?]
  cases t.fieldNamed? owner name <;> simp

theorem methodCollision?_isSome {signature : Signature} :
    (t.methodCollision? owner signature).isSome ↔
      ∃ s ∈ t.slots owner, s.Clashes (.method signature) := by
  have hclash : (∃ s ∈ t.slots owner, s.Clashes (.method signature)) ↔
      .method signature ∈ t.slots owner ∨
        signature.arity = 0 ∧ .field signature.name ∈ t.slots owner := by
    simp only [Slot.clashes_method, and_or_left, exists_or, exists_eq_right, and_left_comm,
      exists_and_left]
  rw [hclash, ← fieldNamed?_isSome, ← methodWith?_isSome, methodCollision?]
  cases t.methodWith? owner signature with
  | some id => simp
  | none => by_cases harity : signature.arity = 0 <;> simp [harity]

/-! ### What declaring a member stores -/

def pushField (t : SymbolTable) (f : FieldInfo) : SymbolTable :=
  { t with fields := t.fields.push f }

def pushMethod (t : SymbolTable) (m : MethodInfo) : SymbolTable :=
  { t with methods := t.methods.push m }

/-! ### Members of one type -/

def Knows (t : SymbolTable) : MemberId → Prop
  | .field id => id.index < t.fields.size
  | .method id => id.index < t.methods.size

def MembersKnown (t : SymbolTable) : Prop := ∀ c, ∀ m ∈ (t.classInfo c).members, t.Knows m

def methodInfos (t : SymbolTable) (c : ClassId) : List MethodInfo :=
  (t.classInfo c).methods.map t.methodInfo

/-- The table `t'` differs from `t` in that further fields and methods were declared for `owner`. -/
structure Grows (owner : ClassId) (t t' : SymbolTable) : Prop where
  size : t'.classes.size = t.classes.size
  head : ∀ c, t'.classInfo c = { t.classInfo c with members := (t'.classInfo c).members }
  others : ∀ c, c ≠ owner → t'.classInfo c = t.classInfo c
  fields : t.fields.toList <+: t'.fields.toList
  methods : t.methods.toList <+: t'.methods.toList
  known : t.MembersKnown → t'.MembersKnown

theorem Grows.refl (owner : ClassId) (t : SymbolTable) : Grows owner t t :=
  ⟨rfl, fun _ => rfl, fun _ _ => rfl, List.prefix_refl _, List.prefix_refl _, fun h => h⟩

theorem Grows.trans {t t' t'' : SymbolTable} (h : Grows owner t t') (h' : Grows owner t' t'') :
    Grows owner t t'' where
  size := h'.size.trans h.size
  head := by
    intro c
    rw [h'.head c, h.head c]
  others := fun c hc => (h'.others c hc).trans (h.others c hc)
  fields := h.fields.trans h'.fields
  methods := h.methods.trans h'.methods
  known := fun hk => h'.known (h.known hk)

theorem fieldInfo_of_extension {t t' : SymbolTable} (h : t.fields.toList <+: t'.fields.toList)
    {id : FieldId} (hid : id.index < t.fields.size) : t'.fieldInfo id = t.fieldInfo id := by
  obtain ⟨more, hmore⟩ := h
  simp only [fieldInfo, ← Array.getElem?_toList, ← hmore]
  rw [List.getElem?_append_left (by simpa using hid)]

theorem methodInfo_of_extension {t t' : SymbolTable} (h : t.methods.toList <+: t'.methods.toList)
    {id : MethodId} (hid : id.index < t.methods.size) : t'.methodInfo id = t.methodInfo id := by
  obtain ⟨more, hmore⟩ := h
  simp only [methodInfo, ← Array.getElem?_toList, ← hmore]
  rw [List.getElem?_append_left (by simpa using hid)]

theorem Grows.names {t t' : SymbolTable} (h : Grows owner t t') : t'.names = t.names := by
  refine List.ext_getElem? fun i => ?_
  by_cases hi : i < t.classes.size
  · have hmem : (⟨i⟩ : ClassId) ∈ t.classIds := mem_classIds.mpr hi
    have hmem' : (⟨i⟩ : ClassId) ∈ t'.classIds := mem_classIds.mpr (h.size ▸ hi)
    rw [names_getElem?_eq_name hmem, names_getElem?_eq_name hmem', h.head]
  · have hsize := h.size
    rw [List.getElem?_eq_none (by rw [length_names]; omega),
      List.getElem?_eq_none (by rw [length_names]; omega)]

theorem classInfo_addMember (t : SymbolTable) (owner : ClassId) (m : MemberId) (c : ClassId) :
    ∃ members, (t.addMember owner m).classInfo c = { t.classInfo c with members := members } ∧
      ∀ m' ∈ members, m' ∈ (t.classInfo c).members ∨ m' = m := by
  by_cases hc : c = owner
  · subst hc
    by_cases hlt : c.index < t.classes.size
    · refine ⟨_, classInfo_modifyClass_self _ hlt, fun m' hm' => ?_⟩
      simpa using hm'
    · exact ⟨_, classInfo_modifyClass_of_le _ (Nat.le_of_not_lt hlt), fun _ h => Or.inl h⟩
  · exact ⟨_, classInfo_modifyClass_of_ne _ hc, fun _ h => Or.inl h⟩

theorem grows_addMember (owner : ClassId) {m : MemberId} (hm : t.Knows m) :
    Grows owner t (t.addMember owner m) where
  size := size_modifyClass ..
  head := by
    intro c
    obtain ⟨members, heq, -⟩ := classInfo_addMember t owner m c
    rw [heq]
  others := fun c hc => classInfo_modifyClass_of_ne _ hc
  fields := List.prefix_refl _
  methods := List.prefix_refl _
  known := by
    intro hk c m' hm'
    obtain ⟨members, heq, hmembers⟩ := classInfo_addMember t owner m c
    rw [heq] at hm'
    rcases hmembers m' hm' with hm' | rfl
    · exact hk c m' hm'
    · exact hm

theorem grows_pushField (t : SymbolTable) (owner : ClassId) (f : FieldInfo) :
    Grows owner t (t.pushField f) where
  size := rfl
  head := fun _ => rfl
  others := fun _ _ => rfl
  fields := by simp [pushField]
  methods := List.prefix_refl _
  known := by
    intro hk c m hm
    have hold := hk c m hm
    cases m with
    | field id =>
      simp only [Knows, pushField, Array.size_push] at hold ⊢
      omega
    | method id => exact hold

theorem grows_pushMethod (t : SymbolTable) (owner : ClassId) (m : MethodInfo) :
    Grows owner t (t.pushMethod m) where
  size := rfl
  head := fun _ => rfl
  others := fun _ _ => rfl
  fields := List.prefix_refl _
  methods := by simp [pushMethod]
  known := by
    intro hk c m' hm'
    have hold := hk c m' hm'
    cases m' with
    | field id => exact hold
    | method id =>
      simp only [Knows, pushMethod, Array.size_push] at hold ⊢
      omega

theorem id_declareField (t : SymbolTable) (f : FieldInfo) :
    (t.declareField f).id = ⟨t.fields.size⟩ := by
  unfold declareField
  split <;> rfl

theorem id_declareMethod (t : SymbolTable) (m : MethodInfo) :
    (t.declareMethod m).id = ⟨t.methods.size⟩ := by
  unfold declareMethod
  split <;> rfl

theorem methods_declareMethod (t : SymbolTable) (m : MethodInfo) :
    (t.declareMethod m).table.methods = t.methods.push m := by
  unfold declareMethod
  split <;> rfl

theorem members_addMember (howner : owner ∈ t.classIds) (m : MemberId) :
    ((t.addMember owner m).classInfo owner).members = (t.classInfo owner).members ++ [m] := by
  rw [addMember, classInfo_modifyClass_self _ (mem_classIds.mp howner)]

end SymbolTable

end Mixin
