import Mixin.Proofs.Graph.Traversal
import Mixin.Proofs.Symbol.Members

/-!
# Supertypes and what they leave to implement

The chain of a type holds the types that can be reached from it by inheritance, and the root
(`mem_chain`). A type implements all it inherits exactly if for each method without a body in its
chain the chain has one with a body (`abstractMembers_eq_nil_iff`).
-/

namespace Mixin

open Relation

theorem distinctBy_sublist {α β : Type} [DecidableEq β] (key : α → β) (seen : List β)
    (l : List α) : (distinctBy key seen l).Sublist l := by
  induction l generalizing seen with
  | nil => exact List.Sublist.refl []
  | cons a rest ih =>
    rw [distinctBy]
    split
    · exact (ih seen).cons a
    · exact (ih _).cons_cons a

theorem mem_distinctBy {α β : Type} [DecidableEq β] {key : α → β} {seen : List β} {l : List α}
    {a : α} : a ∈ distinctBy key seen l ↔
      key a ∉ seen ∧ l.find? (fun b => key b == key a) = some a := by
  induction l generalizing seen with
  | nil => simp [distinctBy]
  | cons b rest ih =>
    rw [distinctBy]
    by_cases hkey : key b = key a
    · rw [List.find?_cons_of_pos (by simp [hkey]), hkey]
      split
      next hseen =>
        rw [ih]
        exact ⟨fun h => absurd hseen h.1, fun h => absurd hseen h.1⟩
      next hnew =>
        rw [List.mem_cons, ih]
        simp [hnew, eq_comm]
    · rw [List.find?_cons_of_neg (by simp [hkey])]
      have hne : a ≠ b := fun heq => hkey (heq ▸ rfl)
      split
      next => exact ih
      next =>
        rw [List.mem_cons, ih, List.mem_cons]
        simp [hne, Ne.symm hkey]

theorem distinctBy_map {α β γ : Type} [DecidableEq γ] (f : α → β) (key : β → γ) (seen : List γ)
    (l : List α) :
    (distinctBy (fun a => key (f a)) seen l).map f = distinctBy key seen (l.map f) := by
  induction l generalizing seen with
  | nil => rfl
  | cons a l ih =>
    rw [List.map_cons, distinctBy, distinctBy]
    split
    · exact ih seen
    · exact congrArg (f a :: ·) (ih _)

theorem distinctBy_eq_nil_iff {α β : Type} [DecidableEq β] {key : α → β} {l : List α} :
    distinctBy key [] l = [] ↔ l = [] := by
  cases l with
  | nil => simp [distinctBy]
  | cons a rest => simp [distinctBy]

namespace SymbolTable

def Inherits (t : SymbolTable) (heir parent : ClassId) : Prop :=
  parent ∈ (t.classInfo heir).directSupertypes

variable {t : SymbolTable} {id c : ClassId}

theorem mem_searchedParents {parent : ClassId} :
    parent ∈ t.searchedParents id ↔ t.Inherits id parent ∧ parent ≠ .root := by
  simp only [searchedParents, Inherits, ClassInfo.directSupertypes, List.mem_filter,
    List.mem_append, decide_eq_true_eq]
  rw [or_comm]

/-- The chain of a type holds the types to which inheritance leads, and the root. -/
theorem mem_chain (hknown : ∀ a b, t.Inherits a b → b ∈ t.classIds) (hid : id ∈ t.classIds)
    (hroot : id ≠ .root) :
    c ∈ t.chain id ↔ c = .root ∨ ReflTransGen (fun a b => t.Inherits a b ∧ b ≠ .root) id c := by
  rw [chain, if_neg hroot, List.mem_append, mem_explore_iff,
    enters_eq _ (fun _ _ => mem_searchedParents) fun a b h => hknown a b h.1,
    List.mem_singleton, or_comm]
  simp [hid]

def chainInfos (t : SymbolTable) (id : ClassId) : List MethodInfo :=
  (t.chain id).flatMap t.methodInfos

theorem map_chainMethods (t : SymbolTable) (id : ClassId) :
    (t.chainMethods id).map t.methodInfo = t.chainInfos id := by
  rw [chainMethods, List.map_flatMap]
  rfl

/-- The chain of a type has a body for each of its methods without one. -/
def Complete (t : SymbolTable) (id : ClassId) : Prop :=
  ∀ m ∈ t.chainInfos id, m.isAbstract = true →
    ∃ m' ∈ t.chainInfos id, m'.isAbstract = false ∧ m'.signature = m.signature

theorem abstractMembers_eq_nil_iff : t.abstractMembers id = [] ↔ t.Complete id := by
  rw [abstractMembers, distinctBy_eq_nil_iff, List.filter_eq_nil_iff, Complete, ← map_chainMethods]
  simp only [List.mem_map, List.mem_filter, Bool.and_eq_true, decide_eq_true_eq, not_and, not_not,
    Bool.not_eq_true', forall_exists_index, and_imp, forall_apply_eq_imp_iff₂,
    exists_exists_and_eq_and, and_assoc]

theorem methodInfo_of_mem_abstractMembers {m : MethodId} (hm : m ∈ t.abstractMembers id) :
    t.methodInfo m ∈ t.chainInfos id ∧ (t.methodInfo m).isAbstract = true := by
  have hmem := List.mem_filter.mp ((distinctBy_sublist ..).subset hm)
  rw [← map_chainMethods]
  exact ⟨List.mem_map_of_mem hmem.1, (Bool.and_eq_true_iff.mp hmem.2).1⟩

end SymbolTable

end Mixin
