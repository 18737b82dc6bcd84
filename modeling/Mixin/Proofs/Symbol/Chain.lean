import Mixin.Proofs.Graph.Unfolding
import Mixin.Proofs.Symbol.Hierarchy

/-!
# The order in which supertypes are searched

The chain of a type is what recursion through traits and superclasses finds, and it lists exactly
the types that can be reached, whatever circles there are (`chain_lists_reachable`). Without circles
it is the full expansion of the type, in which each trait and then the superclass is expanded in
turn, with each type at its first place and the root at the end (`chain_eq_expansion`).
-/

namespace Mixin

open Relation

namespace SymbolTable

def parents (t : SymbolTable) (id : ClassId) : List ClassId :=
  (t.classInfo id).traits ++ (t.classInfo id).superclass.toList

def properIds (t : SymbolTable) : List ClassId := t.classIds.filter (· ≠ .root)

variable {t : SymbolTable} {c d : ClassId}

theorem mem_parents : d ∈ t.parents c ↔ t.Inherits c d := by
  rw [parents, Inherits, ClassInfo.directSupertypes, List.mem_append, List.mem_append, or_comm]

theorem mem_properIds : c ∈ t.properIds ↔ c ∈ t.classIds ∧ c ≠ .root := by
  simp [properIds]

theorem nodup_properIds (t : SymbolTable) : t.properIds.Nodup := t.nodup_classIds.filter _

theorem chain_eq_explore (t : SymbolTable) (c : ClassId) :
    t.chain c = explore t.parents t.properIds [c] ++ [.root] := by
  have hstart : (if c = .root then [] else [c]) = [c].filter (· ≠ .root) := by
    by_cases hc : c = .root <;> simp [hc]
  have hmet : explore (fun a => (t.parents a).filter (· ≠ .root)) t.classIds _ =
      explore t.parents _ [c] := explore_filter (fun a => decide (a ≠ .root)) t.classIds [c]
  rw [chain, hstart, properIds, ← hmet]
  rfl

/-! ### Any hierarchy -/

/-- `d` can be reached from `c`, where neither is the root, through types other than the root. -/
def Reaches (t : SymbolTable) (c d : ClassId) : Prop :=
  c ≠ .root ∧ ReflTransGen (fun a b => t.Inherits a b ∧ b ∈ t.properIds) c d

/-- What the chain of `c` has to be. -/
structure IsChain (t : SymbolTable) (c : ClassId) (chain : List ClassId) : Prop where
  nodup : chain.Nodup
  first : chain.head? = some c
  /-- The root stands at the end and nowhere else. -/
  last : ∃ front, chain = front ++ [.root] ∧ .root ∉ front
  reachable : ∀ d, d ≠ .root → (d ∈ chain ↔ t.Reaches c d)
  root : c = .root → chain = [.root]

theorem mem_explore_parents (hc : c ∈ t.classIds) :
    d ∈ explore t.parents t.properIds [c] ↔ t.Reaches c d := by
  have henters : Enters t.parents t.properIds = fun a b => t.Inherits a b ∧ b ∈ t.properIds := by
    funext a b
    rw [Enters, mem_parents]
  rw [mem_explore_iff, henters, Reaches]
  simp [mem_properIds, hc]

theorem isChain_chain (hc : c ∈ t.classIds) : t.IsChain c (t.chain c) := by
  have hroot : .root ∉ explore t.parents t.properIds [c] := fun hmem =>
    (mem_properIds.mp (mem_unvisited_of_mem_explore hmem)).2 rfl
  have hempty (heq : c = .root) : explore t.parents t.properIds [c] = [] := by
    have hnot : c ∉ t.properIds := fun hmem => (mem_properIds.mp hmem).2 heq
    rw [explore_of_not_mem _ hnot, explore_nil]
  rw [chain_eq_explore]
  refine ⟨?_, ?_, ⟨_, rfl, hroot⟩, fun d hd => ?_, fun heq => by rw [hempty heq]; rfl⟩
  · refine List.nodup_append.mpr ⟨nodup_explore t.nodup_properIds _, List.nodup_singleton _, ?_⟩
    rintro a ha b hb rfl
    exact hroot (List.mem_singleton.mp hb ▸ ha)
  · by_cases heq : c = .root
    · rw [hempty heq, heq]
      rfl
    · rw [explore_of_mem _ (mem_properIds.mpr ⟨hc, heq⟩)]
      rfl
  · rw [List.mem_append, List.mem_singleton, or_iff_left hd, mem_explore_parents hc]

/-- Whatever types inherit from, recursion from a type comes to an end, and its result with the root
behind it is the chain, which lists once each what can be reached. -/
theorem chain_lists_reachable (t : SymbolTable) {c : ClassId} (hc : c ∈ t.classIds) :
    (∀ found, Visits t.parents t.properIds [c] [] found ↔ t.chain c = found ++ [.root]) ∧
      t.IsChain c (t.chain c) := by
  have hvisits : Visits t.parents t.properIds [c] [] _ := visits_explore t.nodup_properIds [c] []
  rw [List.diff_nil, List.nil_append] at hvisits
  refine ⟨fun found => ⟨fun hfound => ?_, fun hchain => ?_⟩, isChain_chain hc⟩
  · rw [chain_eq_explore, hvisits.unique hfound]
  · rw [chain_eq_explore] at hchain
    rw [← List.append_cancel_right hchain]
    exact hvisits

/-- Two classes that inherit from each other, one of them from itself and from the root besides and
from the other one twice, and a root that inherits from one of them. -/
theorem chain_lists_reachable_tangled :
    let decl (name : String) : ClassDecl := ⟨name, .trait, .empty, [], [], none⟩
    let t : SymbolTable := ⟨#[⟨rootDecl, [], none, [⟨1⟩]⟩,
      ⟨decl "A", [], some ⟨2⟩, [⟨1⟩, ⟨0⟩, ⟨2⟩]⟩, ⟨decl "B", [], some ⟨1⟩, []⟩], #[], #[]⟩
    ⟨1⟩ ∈ t.classIds ∧
      (∀ found, Visits t.parents t.properIds [⟨1⟩] [] found ↔ t.chain ⟨1⟩ = found ++ [.root]) ∧
      t.IsChain ⟨1⟩ (t.chain ⟨1⟩) := by
  intro decl t
  have hc : ⟨1⟩ ∈ t.classIds := by decide
  exact ⟨hc, chain_lists_reachable t hc⟩

/-! ### Hierarchies without circles -/

/-- The types into which a type is expanded: its parents, and none for the root. -/
def expandedParents (t : SymbolTable) (id : ClassId) : List ClassId :=
  if id = .root then [] else t.parents id

theorem mem_expandedParents : d ∈ t.expandedParents c ↔ c ≠ .root ∧ t.Inherits c d := by
  rw [expandedParents, ← mem_parents]
  by_cases hc : c = .root <;> simp [hc]

theorem explore_expandedParents (t : SymbolTable) (pending : List ClassId) :
    explore t.expandedParents t.properIds pending = explore t.parents t.properIds pending :=
  explore_congr (fun _ ha => if_neg (mem_properIds.mp ha).2) pending

theorem acyclic_expandedParents (hacyclic : ∀ c, ¬ TransGen t.Inherits c c) :
    ∀ c, ¬ TransGen (fun a b => b ∈ t.expandedParents a) c c := by
  intro c hcircle
  exact hacyclic c (TransGen.mono (fun _ _ h => (mem_expandedParents.mp h).2) _ _ hcircle)

theorem mem_classIds_of_expansion (hknown : ∀ a b, t.Inherits a b → b ∈ t.classIds)
    (hc : c ∈ t.classIds) (hpath : ReflTransGen (fun a b => b ∈ t.expandedParents a) c d) :
    d ∈ t.classIds := by
  cases hpath with
  | refl => exact hc
  | tail _ hstep => exact hknown _ _ (mem_expandedParents.mp hstep).2

/-- The types of the table inherit only from types of the table that have a lower rank. -/
def IsRanked (t : SymbolTable) (rank : ClassId → Nat) : Prop :=
  ∀ a ∈ t.classIds, ∀ b ∈ t.parents a, b ∈ t.classIds ∧ rank b < rank a

instance (t : SymbolTable) (rank : ClassId → Nat) : Decidable (t.IsRanked rank) :=
  inferInstanceAs (Decidable (∀ a ∈ t.classIds, ∀ b ∈ t.parents a, _ ∧ _))

theorem mem_classIds_of_inherits (h : t.Inherits c d) : c ∈ t.classIds := by
  by_contra hnot
  rw [Inherits, classInfo_eq_default_of_notMem hnot] at h
  exact List.not_mem_nil h

theorem IsRanked.known {rank : ClassId → Nat} (h : t.IsRanked rank) :
    ∀ a b, t.Inherits a b → b ∈ t.classIds :=
  fun a b hab => (h a (mem_classIds_of_inherits hab) b (mem_parents.mpr hab)).1

theorem IsRanked.acyclic {rank : ClassId → Nat} (h : t.IsRanked rank) :
    ∀ c, ¬ TransGen t.Inherits c c :=
  not_transGen_self_of_rank rank fun a b hab =>
    (h a (mem_classIds_of_inherits hab) b (mem_parents.mpr hab)).2

/-- If no type inherits from itself, every type has an expansion: the type, the expansion of each
trait in turn, the expansion of the superclass, where the root is expanded to itself alone. The
chain is the expansion without the root and without repetitions, with the root at the end. -/
theorem chain_eq_expansion (hknown : ∀ a b, t.Inherits a b → b ∈ t.classIds)
    (hacyclic : ∀ c, ¬ TransGen t.Inherits c c) (hc : c ∈ t.classIds) :
    (∃ list, Unfolds t.expandedParents [c] list) ∧
      ∀ list, Unfolds t.expandedParents [c] list →
        t.chain c = (list.filter (· ≠ .root)).eraseDups ++ [.root] := by
  have hacyclic := acyclic_expandedParents hacyclic
  refine ⟨exists_unfolds hacyclic t.classIds fun p hp d hpath => ?_, fun list hlist => ?_⟩
  · rw [List.mem_singleton.mp hp] at hpath
    exact mem_classIds_of_expansion hknown hc hpath
  have hids : ∀ x ∈ list, x ∈ t.classIds := by
    intro x hx
    obtain ⟨p, hp, hpath⟩ := hlist.mem_iff.mp hx
    rw [List.mem_singleton.mp hp] at hpath
    exact mem_classIds_of_expansion hknown hc hpath
  -- Of the types in the expansion only the root may not be visited, and nothing lies behind it.
  have hclosed : ∀ x ∈ list, x ∉ t.properIds → ∀ y,
      ReflTransGen (fun a b => b ∈ t.expandedParents a) x y → y ∉ t.properIds := by
    intro x hx hnot y hpath
    have hxroot : x = .root := by
      by_contra hne
      exact hnot (mem_properIds.mpr ⟨hids x hx, hne⟩)
    rcases hpath.cases_head with rfl | ⟨b, hb, -⟩
    · exact hnot
    · exact absurd hxroot (mem_expandedParents.mp hb).1
  rw [chain_eq_explore, ← explore_expandedParents,
    explore_eq_eraseDups hacyclic t.nodup_properIds hlist hclosed]
  refine congrArg (fun l => List.eraseDups l ++ [ClassId.root]) (List.filter_congr fun x hx => ?_)
  simp [mem_properIds, hids x hx]

/-- A class that inherits from a class and two traits, which all inherit from one trait. -/
theorem chain_eq_expansion_diamond :
    let decl (name : String) : ClassDecl := ⟨name, .trait, .empty, [], [], none⟩
    let t : SymbolTable := ⟨#[⟨rootDecl, [], none, []⟩, ⟨decl "Base", [], none, []⟩,
      ⟨decl "Left", [], none, [⟨1⟩]⟩, ⟨decl "Right", [], none, [⟨1⟩]⟩,
      ⟨decl "S", [], some ⟨0⟩, [⟨1⟩]⟩, ⟨decl "C", [], some ⟨4⟩, [⟨2⟩, ⟨3⟩]⟩], #[], #[]⟩
    (∀ a b, t.Inherits a b → b ∈ t.classIds) ∧ (∀ c, ¬ TransGen t.Inherits c c) ∧
      ⟨5⟩ ∈ t.classIds ∧ (∃ list, Unfolds t.expandedParents [⟨5⟩] list) ∧
      ∀ list, Unfolds t.expandedParents [⟨5⟩] list →
        t.chain ⟨5⟩ = (list.filter (· ≠ .root)).eraseDups ++ [.root] := by
  intro decl t
  have hranked : t.IsRanked fun c => c.index := by decide
  have hc : ⟨5⟩ ∈ t.classIds := by decide
  exact ⟨hranked.known, hranked.acyclic, hc, chain_eq_expansion hranked.known hranked.acyclic hc⟩

/-- A class that inherits from the root, which inherits from a trait: the trait is in the expansion
of the class if the root is expanded like any other type, and it is not in the chain. -/
theorem chain_omits_parents_of_root :
    let decl (name : String) : ClassDecl := ⟨name, .trait, .empty, [], [], none⟩
    let t : SymbolTable := ⟨#[⟨rootDecl, [], none, [⟨2⟩]⟩, ⟨decl "A", [], some ⟨0⟩, []⟩,
      ⟨decl "B", [], none, []⟩], #[], #[]⟩
    (∀ a b, t.Inherits a b → b ∈ t.classIds) ∧ (∀ c, ¬ TransGen t.Inherits c c) ∧
      ⟨1⟩ ∈ t.classIds ∧ (⟨1⟩ : ClassId) ≠ .root ∧
      ∃ list, Unfolds t.parents [⟨1⟩] list ∧
        t.chain ⟨1⟩ ≠ (list.filter (· ≠ .root)).eraseDups ++ [.root] := by
  intro decl t
  have hchain : t.chain ⟨1⟩ = [⟨1⟩, ⟨0⟩] := by cbv
  have hlist : Unfolds t.parents [⟨1⟩] [⟨1⟩, ⟨0⟩, ⟨2⟩] := by
    have h2 : Unfolds t.parents (t.parents ⟨2⟩) [] := .nil
    have h0 : Unfolds t.parents (t.parents ⟨0⟩) [⟨2⟩] := .cons h2 .nil
    have h1 : Unfolds t.parents (t.parents ⟨1⟩) [⟨0⟩, ⟨2⟩] := .cons h0 .nil
    exact .cons h1 .nil
  have hranked : t.IsRanked fun c => if c = ⟨2⟩ then 0 else c.index + 1 := by decide
  exact ⟨hranked.known, hranked.acyclic, by decide, by decide, _, hlist, by rw [hchain]; decide⟩

end SymbolTable

end Mixin
