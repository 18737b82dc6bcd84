import Mathlib.Data.List.Basic
import Mathlib.Data.List.Nodup
import Mixin.Symbol.Hierarchy

/-!
# Reading and changing symbol tables

What is known of a type after another one, or the same one, was changed, and to which type a name is
bound: lookup depends on the names of the types only, and these never change.
-/

namespace Mixin

namespace SymbolTable

variable {t : SymbolTable} {id : ClassId} {name : String}

/-! ### Identifiers -/

theorem mem_classIds : id ∈ t.classIds ↔ id.index < t.classes.size := by
  simp only [classIds, List.mem_map, List.mem_range]
  constructor
  · rintro ⟨i, hi, rfl⟩
    exact hi
  · intro hi
    exact ⟨id.index, hi, rfl⟩

theorem classIds_pairwise (t : SymbolTable) : t.classIds.Pairwise fun a b => a.index < b.index :=
  List.pairwise_map.mpr List.pairwise_lt_range

theorem nodup_classIds (t : SymbolTable) : t.classIds.Nodup := by
  refine t.classIds_pairwise.imp ?_
  rintro a b h rfl
  exact Nat.lt_irrefl _ h

theorem classInfo_eq_default (h : t.classes.size ≤ id.index) : t.classInfo id = default := by
  simp only [classInfo, Array.getElem?_eq_none h, Option.getD_none]

theorem classInfo_eq_default_of_notMem (h : id ∉ t.classIds) : t.classInfo id = default := by
  rw [mem_classIds, Nat.not_lt] at h
  exact classInfo_eq_default h

/-! ### Changes -/

@[simp] theorem size_modifyClass (t : SymbolTable) (id : ClassId) (f : ClassInfo → ClassInfo) :
    (t.modifyClass id f).classes.size = t.classes.size := by
  simp [modifyClass]

theorem classInfo_modifyClass_self (f : ClassInfo → ClassInfo) (h : id.index < t.classes.size) :
    (t.modifyClass id f).classInfo id = f (t.classInfo id) := by
  simp only [modifyClass, classInfo, Array.getElem?_modify, if_true, Array.getElem?_eq_getElem h,
    Option.map_some, Option.getD_some]

theorem classInfo_modifyClass_of_ne {id c : ClassId} (f : ClassInfo → ClassInfo) (h : c ≠ id) :
    (t.modifyClass id f).classInfo c = t.classInfo c := by
  have hne : ¬ id.index = c.index := fun heq => h (congrArg ClassId.mk heq.symm)
  simp only [modifyClass, classInfo, Array.getElem?_modify, hne, if_false]

theorem classInfo_modifyClass_of_le {id c : ClassId} (f : ClassInfo → ClassInfo)
    (h : t.classes.size ≤ c.index) : (t.modifyClass id f).classInfo c = t.classInfo c := by
  have hsize : (t.modifyClass id f).classes.size ≤ c.index := by
    rw [size_modifyClass]
    exact h
  rw [classInfo_eq_default hsize, classInfo_eq_default h]

theorem classInfo_modifyClass (f : ClassInfo → ClassInfo) (hf : f default = default) (c : ClassId) :
    (t.modifyClass id f).classInfo c = if c = id then f (t.classInfo c) else t.classInfo c := by
  by_cases hc : c = id
  · subst hc
    rw [if_pos rfl]
    by_cases h : c.index < t.classes.size
    · exact classInfo_modifyClass_self f h
    · have hle := Nat.le_of_not_lt h
      rw [classInfo_modifyClass_of_le f hle, classInfo_eq_default hle, hf]
  · rw [if_neg hc]
    exact classInfo_modifyClass_of_ne f hc

@[simp] theorem size_setSupertypes (t : SymbolTable) (id : ClassId) (superclass : Option ClassId)
    (traits : List ClassId) :
    (t.setSupertypes id superclass traits).classes.size = t.classes.size :=
  size_modifyClass ..

@[simp] theorem size_removeSupertype (t : SymbolTable) (id parent : ClassId) :
    (t.removeSupertype id parent).classes.size = t.classes.size :=
  size_modifyClass ..

/-! ### Names -/

def names (t : SymbolTable) : List String := t.classes.toList.map fun c => c.name

theorem length_names (t : SymbolTable) : t.names.length = t.classes.size := by
  simp [names]

theorem names_modifyClass (t : SymbolTable) (id : ClassId) {f : ClassInfo → ClassInfo}
    (hf : ∀ c, (f c).name = c.name) : (t.modifyClass id f).names = t.names := by
  refine List.ext_getElem? fun i => ?_
  simp only [names, modifyClass, Array.toList_modify, List.getElem?_map, List.getElem?_modify]
  by_cases hi : id.index = i
  · cases t.classes.toList[i]? <;> simp [hi, hf]
  · cases t.classes.toList[i]? <;> simp [hi]

@[simp] theorem names_setSupertypes (t : SymbolTable) (id : ClassId) (superclass : Option ClassId)
    (traits : List ClassId) : (t.setSupertypes id superclass traits).names = t.names :=
  names_modifyClass t id fun _ => rfl

theorem lookup?_eq_findIdx? (t : SymbolTable) (name : String) :
    t.lookup? name = (t.names.findIdx? (· == name)).map ClassId.mk := by
  rw [lookup?, names, List.findIdx?_map, ← List.findIdx?_toArray]
  rfl

theorem lookup?_eq_none_iff : t.lookup? name = none ↔ name ∉ t.names := by
  simp only [lookup?_eq_findIdx?, Option.map_eq_none_iff, List.findIdx?_eq_none_iff,
    beq_eq_false_iff_ne]
  constructor
  · intro h hmem
    exact h name hmem rfl
  · intro h x hx heq
    exact h (heq ▸ hx)

theorem names_getElem?_of_lookup? (h : t.lookup? name = some id) :
    t.names[id.index]? = some name := by
  rw [lookup?_eq_findIdx?] at h
  obtain ⟨i, hi, rfl⟩ := Option.map_eq_some_iff.mp h
  obtain ⟨hlt, hname, -⟩ := List.findIdx?_eq_some_iff_getElem.mp hi
  rw [List.getElem?_eq_getElem hlt]
  exact congrArg some (beq_iff_eq.mp hname)

theorem lookup?_mem_classIds (h : t.lookup? name = some id) : id ∈ t.classIds := by
  rw [mem_classIds, ← length_names]
  obtain ⟨hlt, -⟩ := List.getElem?_eq_some_iff.mp (names_getElem?_of_lookup? h)
  exact hlt

theorem names_getElem?_eq_name (h : id ∈ t.classIds) :
    t.names[id.index]? = some (t.classInfo id).name := by
  have hlt := mem_classIds.mp h
  simp [names, classInfo, hlt]

theorem toList_classes (t : SymbolTable) : t.classes.toList = t.classIds.map t.classInfo := by
  refine List.ext_getElem (by simp [classIds]) fun i hi _ => ?_
  rw [Array.length_toList] at hi
  simp [classIds, classInfo, hi]

theorem names_eq_map (t : SymbolTable) :
    t.names = t.classIds.map fun id => (t.classInfo id).name := by
  rw [names, toList_classes, List.map_map]
  rfl

theorem lookup?_eq_some_of_nodup (hnodup : t.names.Nodup) {i : Nat} (h : t.names[i]? = some name) :
    t.lookup? name = some ⟨i⟩ := by
  obtain ⟨hlt, hname⟩ := List.getElem?_eq_some_iff.mp h
  cases hfound : t.lookup? name with
  | none =>
    rw [lookup?_eq_none_iff] at hfound
    exact absurd (List.mem_of_getElem? h) hfound
  | some id =>
    obtain ⟨hlt', hname'⟩ := List.getElem?_eq_some_iff.mp (names_getElem?_of_lookup? hfound)
    have heq : id.index = i := hnodup.getElem_inj_iff.mp (hname'.trans hname.symm)
    rw [← heq]

theorem lookup?_eq_some_iff (hnodup : t.names.Nodup) :
    t.lookup? name = some id ↔ id ∈ t.classIds ∧ (t.classInfo id).name = name := by
  constructor
  · intro h
    have hid := lookup?_mem_classIds h
    have hname := names_getElem?_of_lookup? h
    rw [names_getElem?_eq_name hid] at hname
    exact ⟨hid, Option.some.inj hname⟩
  · rintro ⟨hid, rfl⟩
    exact lookup?_eq_some_of_nodup hnodup (names_getElem?_eq_name hid)

end SymbolTable

end Mixin
