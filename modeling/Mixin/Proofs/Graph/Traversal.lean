import Mathlib.Data.List.Basic
import Mathlib.Logic.Relation
import Mixin.Graph

/-!
# What a traversal finds

`explore` lists exactly the nodes to which a path leads from a pending node, where the path stays
among the unvisited nodes. That nothing is missed is shown through closure: the result contains the
pending nodes, and with a node all its unvisited successors.
-/

namespace Mixin

open Relation

section Traversal

variable {α : Type} (successors : α → List α)

/-- One step of a traversal that may only enter the `unvisited` nodes. -/
def Enters (unvisited : List α) (a b : α) : Prop := b ∈ successors a ∧ b ∈ unvisited

theorem enters_eq {R : α → α → Prop} {nodes : List α} (hmem : ∀ x y, y ∈ successors x ↔ R x y)
    (hnodes : ∀ x y, R x y → y ∈ nodes) : Enters successors nodes = R := by
  funext x y
  simp only [Enters, hmem, eq_iff_iff, and_iff_left_iff_imp]
  exact hnodes x y

variable [DecidableEq α]

theorem explore_nil (unvisited : List α) : explore successors unvisited [] = [] := by
  rw [explore]

theorem explore_of_mem {unvisited : List α} {a : α} (ha : a ∈ unvisited) (rest : List α) :
    explore successors unvisited (a :: rest) =
      a :: explore successors (unvisited.erase a) (successors a ++ rest) := by
  rw [explore, dif_pos ha]

theorem explore_of_not_mem {unvisited : List α} {a : α} (ha : a ∉ unvisited) (rest : List α) :
    explore successors unvisited (a :: rest) = explore successors unvisited rest := by
  rw [explore, dif_neg ha]

theorem mem_explore_of_mem_pending {unvisited pending : List α} {p : α} (hp : p ∈ pending)
    (hu : p ∈ unvisited) : p ∈ explore successors unvisited pending := by
  induction unvisited, pending using explore.induct successors with
  | case1 => simp at hp
  | case2 unvisited a rest ha ih =>
    rw [explore_of_mem successors ha]
    by_cases hpa : p = a
    · rw [hpa]
      exact List.mem_cons_self ..
    · have hrest : p ∈ rest := (List.mem_cons.mp hp).resolve_left hpa
      have herase : p ∈ unvisited.erase a := (List.mem_erase_of_ne hpa).mpr hu
      exact List.mem_cons_of_mem _ (ih (List.mem_append_right _ hrest) herase)
  | case3 unvisited a rest ha ih =>
    rw [explore_of_not_mem successors ha]
    have hpa : p ≠ a := fun h => ha (h ▸ hu)
    exact ih ((List.mem_cons.mp hp).resolve_left hpa) hu

theorem explore_closed {unvisited pending : List α} {x y : α}
    (hx : x ∈ explore successors unvisited pending) (hxy : Enters successors unvisited x y) :
    y ∈ explore successors unvisited pending := by
  induction unvisited, pending using explore.induct successors with
  | case1 => simp [explore_nil] at hx
  | case2 unvisited a rest ha ih =>
    rw [explore_of_mem successors ha] at hx ⊢
    obtain ⟨hsucc, hu⟩ := hxy
    by_cases hya : y = a
    · rw [hya]
      exact List.mem_cons_self ..
    · have herase : y ∈ unvisited.erase a := (List.mem_erase_of_ne hya).mpr hu
      refine List.mem_cons_of_mem _ ?_
      rcases List.mem_cons.mp hx with hxa | hx
      · rw [hxa] at hsucc
        exact mem_explore_of_mem_pending successors (List.mem_append_left _ hsucc) herase
      · exact ih hx ⟨hsucc, herase⟩
  | case3 unvisited a rest ha ih =>
    rw [explore_of_not_mem successors ha] at hx ⊢
    exact ih hx hxy

theorem exists_path_of_mem_explore {unvisited pending : List α} {x : α}
    (hx : x ∈ explore successors unvisited pending) :
    ∃ p ∈ pending, p ∈ unvisited ∧ ReflTransGen (Enters successors unvisited) p x := by
  induction unvisited, pending using explore.induct successors with
  | case1 => simp [explore_nil] at hx
  | case2 unvisited a rest ha ih =>
    rw [explore_of_mem successors ha] at hx
    rcases List.mem_cons.mp hx with hxa | hx
    · exact ⟨a, List.mem_cons_self .., ha, hxa ▸ ReflTransGen.refl⟩
    · obtain ⟨p, hp, hpu, hpath⟩ := ih hx
      have hmem : p ∈ unvisited := List.mem_of_mem_erase hpu
      -- The rest of the traversal may enter fewer nodes, so its paths are paths here too.
      have hpath : ReflTransGen (Enters successors unvisited) p x :=
        ReflTransGen.mono (fun _ _ h => ⟨h.1, List.mem_of_mem_erase h.2⟩) _ _ hpath
      rcases List.mem_append.mp hp with hp | hp
      · exact ⟨a, List.mem_cons_self .., ha, ReflTransGen.head ⟨hp, hmem⟩ hpath⟩
      · exact ⟨p, List.mem_cons_of_mem _ hp, hmem, hpath⟩
  | case3 unvisited a rest ha ih =>
    rw [explore_of_not_mem successors ha] at hx
    obtain ⟨p, hp, hpu, hpath⟩ := ih hx
    exact ⟨p, List.mem_cons_of_mem _ hp, hpu, hpath⟩

/-- A traversal finds what can be reached, and nothing else. -/
theorem mem_explore_iff {unvisited pending : List α} {x : α} :
    x ∈ explore successors unvisited pending ↔
      ∃ p ∈ pending, p ∈ unvisited ∧ ReflTransGen (Enters successors unvisited) p x := by
  constructor
  · exact exists_path_of_mem_explore successors
  · rintro ⟨p, hp, hpu, hpath⟩
    induction hpath with
    | refl => exact mem_explore_of_mem_pending successors hp hpu
    | tail _ hstep ih => exact explore_closed successors ih hstep

theorem mem_explore_successors {R : α → α → Prop} {nodes : List α} {a b : α}
    (hmem : ∀ x y, y ∈ successors x ↔ R x y) (hnodes : ∀ x y, R x y → y ∈ nodes) :
    b ∈ explore successors nodes (successors a) ↔ TransGen R a b := by
  rw [mem_explore_iff, enters_eq successors hmem hnodes, TransGen.head'_iff]
  constructor
  · rintro ⟨p, hp, -, hpath⟩
    exact ⟨p, (hmem a p).mp hp, hpath⟩
  · rintro ⟨p, hp, hpath⟩
    exact ⟨p, (hmem a p).mpr hp, hnodes a p hp, hpath⟩

end Traversal

end Mixin
