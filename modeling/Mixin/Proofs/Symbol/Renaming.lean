import Mathlib.Data.List.Perm.Subperm
import Mixin.Proofs.Symbol.Chain
import Mixin.Proofs.Symbol.MemberInfo

/-!
# Renaming types

Two tables may hold the same types under different identifiers (`Renames`). Then a type has the same
chain in both, up to the identifiers, and the same members in it. If no two types share a name, the
identifiers of two tables with the same names are matched by name (`counterpart`).
-/

namespace Mixin

def MethodInfo.renamed (ρ : ClassId → ClassId) (m : MethodInfo) : MethodInfo :=
  { m with owner := ρ m.owner }

def MemberInfo.renamed (ρ : ClassId → ClassId) : MemberInfo → MemberInfo
  | field f => .field { f with owner := ρ f.owner }
  | method m => .method (m.renamed ρ)

namespace SymbolTable

/-- The table `t'` holds under the identifier `ρ c` what `t` holds under `c`. -/
structure Renames (ρ : ClassId → ClassId) (t t' : SymbolTable) : Prop where
  injective : Function.Injective ρ
  root : ρ .root = .root
  ids : (t.classIds.map ρ).Perm t'.classIds
  decl : ∀ c, (t'.classInfo (ρ c)).toClassDecl = (t.classInfo c).toClassDecl
  superclass : ∀ c, (t'.classInfo (ρ c)).superclass = (t.classInfo c).superclass.map ρ
  traits : ∀ c, (t'.classInfo (ρ c)).traits = (t.classInfo c).traits.map ρ
  members : ∀ c, t'.memberInfos (ρ c) = (t.memberInfos c).map (·.renamed ρ)

namespace Renames

variable {ρ : ClassId → ClassId} {t t' : SymbolTable} (h : Renames ρ t t')
include h

theorem name (c : ClassId) : (t'.classInfo (ρ c)).name = (t.classInfo c).name :=
  congrArg ClassDecl.name (h.decl c)

theorem eq_root_iff {c : ClassId} : ρ c = .root ↔ c = .root := by
  rw [← h.injective.eq_iff (a := c), h.root]

theorem getD_root (o : Option ClassId) : (o.map ρ).getD .root = ρ (o.getD .root) := by
  cases o with
  | none => exact h.root.symm
  | some c => rfl

theorem parents (c : ClassId) : t'.parents (ρ c) = (t.parents c).map ρ := by
  rw [SymbolTable.parents, SymbolTable.parents, h.traits, h.superclass, List.map_append]
  cases (t.classInfo c).superclass <;> rfl

theorem properIds : (t.properIds.map ρ).Perm t'.properIds := by
  have hmap : t.properIds.map ρ = (t.classIds.map ρ).filter (· ≠ .root) := by
    rw [SymbolTable.properIds, List.filter_map]
    refine congrArg (List.map ρ) (List.filter_congr fun c _ => ?_)
    simp [h.eq_root_iff]
  rw [hmap]
  exact h.ids.filter _

theorem chain (c : ClassId) : t'.chain (ρ c) = (t.chain c).map ρ := by
  have hexplore := explore_map h.injective h.parents t.properIds [c]
  rw [chain_eq_explore, chain_eq_explore, ← explore_perm h.properIds, List.map_append,
    ← hexplore, List.map_singleton, List.map_singleton, h.root]

theorem methodInfos (c : ClassId) : t'.methodInfos (ρ c) = (t.methodInfos c).map (·.renamed ρ) := by
  rw [methodInfos_eq_filterMap, methodInfos_eq_filterMap, h.members, List.filterMap_map,
    List.map_filterMap]
  refine List.filterMap_congr fun m _ => ?_
  cases m <;> rfl

theorem chainInfos (c : ClassId) : t'.chainInfos (ρ c) = (t.chainInfos c).map (·.renamed ρ) := by
  rw [SymbolTable.chainInfos, SymbolTable.chainInfos, h.chain, List.flatMap_map, List.map_flatMap]
  exact List.flatMap_congr fun d _ => h.methodInfos d

theorem fieldNames (c : ClassId) :
    ((t'.classInfo (ρ c)).fields.map fun f => (t'.fieldInfo f).name) =
      (t.classInfo c).fields.map fun f => (t.fieldInfo f).name := by
  rw [fieldNames_eq_filterMap, fieldNames_eq_filterMap, h.members, List.filterMap_map]
  refine List.filterMap_congr fun m _ => ?_
  cases m <;> rfl

end Renames

/-! ### Matching by name -/

/-- The type that `t'` holds under the name that `c` has in `t`. -/
def counterpart (t t' : SymbolTable) (c : ClassId) : ClassId :=
  if c ∈ t.classIds then (t'.lookup? (t.classInfo c).name).getD c else c

section Names

variable {t t' : SymbolTable} {c : ClassId}

theorem lookup?_classInfo_name (hnodup : t.names.Nodup) (hc : c ∈ t.classIds) :
    t.lookup? (t.classInfo c).name = some c :=
  lookup?_eq_some_of_nodup hnodup (names_getElem?_eq_name hc)

theorem name_of_lookup? {name : String} (h : t.lookup? name = some c) :
    (t.classInfo c).name = name := by
  have hname := names_getElem?_of_lookup? h
  rw [names_getElem?_eq_name (lookup?_mem_classIds h)] at hname
  exact Option.some.inj hname

theorem lookup?_of_perm (hperm : t.names.Perm t'.names) (hc : c ∈ t.classIds) :
    t'.lookup? (t.classInfo c).name = some (counterpart t t' c) := by
  rw [counterpart, if_pos hc]
  cases hfound : t'.lookup? (t.classInfo c).name with
  | some c' => rfl
  | none =>
    rw [lookup?_eq_none_iff, ← hperm.mem_iff] at hfound
    exact absurd (List.mem_of_getElem? (names_getElem?_eq_name hc)) hfound

theorem size_of_perm (hperm : t.names.Perm t'.names) : t.classes.size = t'.classes.size := by
  rw [← length_names, ← length_names, hperm.length_eq]

theorem mem_classIds_of_perm (hperm : t.names.Perm t'.names) :
    c ∈ t.classIds ↔ c ∈ t'.classIds := by
  rw [mem_classIds, mem_classIds, size_of_perm hperm]

theorem counterpart_mem_iff (hperm : t.names.Perm t'.names) :
    counterpart t t' c ∈ t'.classIds ↔ c ∈ t.classIds := by
  by_cases hc : c ∈ t.classIds
  · exact iff_of_true (lookup?_mem_classIds (lookup?_of_perm hperm hc)) hc
  · rw [counterpart, if_neg hc, mem_classIds_of_perm hperm]

theorem counterpart_injective (hnodup : t.names.Nodup) (hperm : t.names.Perm t'.names) :
    Function.Injective (counterpart t t') := by
  intro c d heq
  have hiff : c ∈ t.classIds ↔ d ∈ t.classIds := by
    rw [← counterpart_mem_iff hperm, heq, counterpart_mem_iff hperm]
  by_cases hc : c ∈ t.classIds
  · -- Types with the same counterpart have its name, and no two types share a name.
    have hname := name_of_lookup? (lookup?_of_perm hperm hc)
    rw [heq, name_of_lookup? (lookup?_of_perm hperm (hiff.mp hc))] at hname
    have hfound := lookup?_classInfo_name hnodup hc
    rw [← hname, lookup?_classInfo_name hnodup (hiff.mp hc)] at hfound
    exact (Option.some.inj hfound).symm
  · rwa [counterpart, counterpart, if_neg hc, if_neg (mt hiff.mpr hc)] at heq

theorem perm_counterpart (hnodup : t.names.Nodup) (hperm : t.names.Perm t'.names) :
    (t.classIds.map (counterpart t t')).Perm t'.classIds := by
  have hinjective := counterpart_injective hnodup hperm
  refine (List.subperm_of_subset (t.nodup_classIds.map hinjective) ?_).perm_of_length_le ?_
  · intro c hc
    obtain ⟨d, hd, rfl⟩ := List.mem_map.mp hc
    exact (counterpart_mem_iff hperm).mpr hd
  · have hsize := size_of_perm hperm
    simp [classIds, hsize]

theorem lookup?_eq_map (hperm : t.names.Perm t'.names) (name : String) :
    t'.lookup? name = (t.lookup? name).map (counterpart t t') := by
  cases hfound : t.lookup? name with
  | none =>
    rw [lookup?_eq_none_iff, hperm.mem_iff] at hfound
    exact lookup?_eq_none_iff.mpr hfound
  | some c =>
    rw [← name_of_lookup? hfound, lookup?_of_perm hperm (lookup?_mem_classIds hfound)]
    rfl

end Names

end SymbolTable

end Mixin
