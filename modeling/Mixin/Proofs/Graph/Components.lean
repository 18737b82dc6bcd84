import Mathlib.Order.Bounds.Defs
import Mathlib.Order.Lattice
import Mixin.Proofs.Graph.Cycles

/-!
# One circle for each component

The strongly connected components of a graph, also those of a single node on no circle. Of each that
has a closed walk, `Graph.cycles` lists one circle, from the smallest node of the component on; the
circles stand in the order of their first nodes (`cycles_exact`).
-/

namespace Mixin

open Relation

namespace Graph

variable {α : Type}

/-- Walks lead from each of two nodes to the other. -/
def Connected (g : Graph α) (a b : α) : Prop := ReflTransGen g.Edge a b ∧ ReflTransGen g.Edge b a

/-- A strongly connected component: all nodes that are connected with one of them. -/
def IsComponent (g : Graph α) (C : Set α) : Prop := ∃ a ∈ g.nodes, C = {b | g.Connected a b}

def HasCycle (g : Graph α) (C : Set α) : Prop := ∃ a ∈ C, TransGen g.Edge a a

theorem Connected.symm {g : Graph α} {a b : α} (h : g.Connected a b) : g.Connected b a := ⟨h.2, h.1⟩

theorem Connected.trans {g : Graph α} {a b c : α} (h : g.Connected a b) (h' : g.Connected b c) :
    g.Connected a c := ⟨h.1.trans h'.1, h'.2.trans h.2⟩

theorem IsComponent.eq_of_mem {g : Graph α} {C : Set α} (h : g.IsComponent C) {a : α} (ha : a ∈ C) :
    C = {b | g.Connected a b} := by
  obtain ⟨c, -, rfl⟩ := h
  ext b
  exact ⟨fun hb => (Connected.symm ha).trans hb, fun hb => Connected.trans ha hb⟩

section LinearOrder

variable [LinearOrder α] {g : Graph α}

/-- The listed component of a node on a closed walk is its strongly connected component. -/
theorem mem_component_iff_connected (hg : g.Closed) {a b : α} (ha : TransGen g.Edge a a) :
    b ∈ g.component a ↔ g.Connected a b := by
  rw [mem_component hg]
  constructor
  · rintro ⟨hab, hba⟩
    exact ⟨hab.to_reflTransGen, hba.to_reflTransGen⟩
  · rintro ⟨hab, hba⟩
    exact ⟨ha.trans_left hab, ha.trans_right hba⟩

theorem isLeast_of_head_component (hg : g.Closed) (hnodes : g.nodes.Pairwise (· < ·)) {a : α}
    (ha : (g.component a).head? = some a) : IsLeast {b | g.Connected a b} a := by
  refine ⟨⟨.refl, .refl⟩, fun b hb => ?_⟩
  have haa : TransGen g.Edge a a := ((mem_component hg).mp (List.mem_of_mem_head? ha)).1
  have hmem : b ∈ g.component a := (mem_component_iff_connected hg haa).mpr hb
  obtain ⟨rest, hrest⟩ := List.head?_eq_some_iff.mp ha
  have hsorted := hnodes.sublist (g.component_sublist a)
  rw [hrest] at hmem hsorted
  rcases List.mem_cons.mp hmem with rfl | hmem
  · exact le_rfl
  · exact ((List.pairwise_cons.mp hsorted).1 b hmem).le

/-- What a list of circles has to be so that it has one of each component that has any. -/
structure ListsCycles (g : Graph α) (cycles : List (List α)) : Prop where
  /-- Each is a circle within a component, from the smallest node of the component on. -/
  circle : ∀ cycle ∈ cycles, g.IsCycle cycle ∧ ∃ C, g.IsComponent C ∧ (∀ x ∈ cycle, x ∈ C) ∧
    ∃ a, cycle.head? = some a ∧ IsLeast C a
  /-- A component with a closed walk has one of them. -/
  one : ∀ C, g.IsComponent C → g.HasCycle C → ∃! cycle, cycle ∈ cycles ∧ ∀ x ∈ cycle, x ∈ C
  /-- None of them meets any other component. -/
  none : ∀ C, g.IsComponent C → ¬ g.HasCycle C → ∀ cycle ∈ cycles, ∀ x ∈ cycle, x ∉ C
  /-- They stand in the order of their first nodes, and no two have the same. -/
  sorted : ∃ starts : List α, cycles.map List.head? = starts.map some ∧ starts.Pairwise (· < ·)
  /-- There are none exactly if the graph has no closed walk. -/
  empty : cycles = [] ↔ g.Acyclic

theorem map_head?_cycles (hg : g.Closed) (hnodes : g.nodes.Nodup) :
    g.cycles.map List.head? =
      (g.nodes.filter fun a => (g.component a).head? = some a).map some := by
  rw [cycles, List.map_filterMap, ← List.filterMap_eq_map, List.filterMap_filter]
  refine List.filterMap_congr fun a _ => ?_
  by_cases ha : (g.component a).head? = some a
  · simp [ha, (cycleThrough_spec hg hnodes (List.mem_of_mem_head? ha)).2.1]
  · simp [ha]

theorem cycle_unique (hg : g.Closed) (hnodes : g.nodes.Nodup) {C : Set α} (hC : g.IsComponent C)
    {cycle other : List α} (hcycle : cycle ∈ g.cycles) (hother : other ∈ g.cycles)
    (hin : ∀ x ∈ cycle, x ∈ C) (hin' : ∀ x ∈ other, x ∈ C) : cycle = other := by
  obtain ⟨a, -, ha, rfl⟩ := mem_cycles.mp hcycle
  obtain ⟨b, -, hb, rfl⟩ := mem_cycles.mp hother
  have hamem := List.mem_of_mem_head? ha
  have haC : a ∈ C := hin a (List.mem_of_mem_head? (cycleThrough_spec hg hnodes hamem).2.1)
  have hbC : b ∈ C :=
    hin' b (List.mem_of_mem_head? (cycleThrough_spec hg hnodes (List.mem_of_mem_head? hb)).2.1)
  rw [hC.eq_of_mem haC] at hbC
  have hba : b ∈ g.component a :=
    (mem_component_iff_connected hg ((mem_component hg).mp hamem).1).mpr hbC
  -- Nodes of one component have the same component, and it has only one first node.
  have heq := component_eq_of_mem hg hba
  rw [heq, ha] at hb
  rw [Option.some.inj hb]

/-- The listed circles are one for each component that has a closed walk, and no others. -/
theorem cycles_exact (hg : g.Closed) (hnodes : g.nodes.Pairwise (· < ·)) :
    g.ListsCycles g.cycles where
  circle := by
    intro cycle hcycle
    obtain ⟨hcircle, a, hhead, hfirst, hin⟩ := cycle_spec hg (hnodes.imp ne_of_lt) hcycle
    have hamem := List.mem_of_mem_head? hfirst
    have haa : TransGen g.Edge a a := ((mem_component hg).mp hamem).1
    refine ⟨hcircle, {b | g.Connected a b}, ⟨a, (g.component_sublist a).subset hamem, rfl⟩, ?_, a,
      hhead, isLeast_of_head_component hg hnodes hfirst⟩
    intro x hx
    exact (mem_component_iff_connected hg haa).mp (hin x hx)
  one := by
    rintro C hC ⟨a, ha, haa⟩
    obtain ⟨b, hb, hbnode, hfirst⟩ := exists_leader hg haa
    have hcycle : g.cycleThrough (g.component b) b ∈ g.cycles :=
      mem_cycles.mpr ⟨b, hbnode, hfirst, rfl⟩
    have hin : ∀ x ∈ g.cycleThrough (g.component b) b, x ∈ C := by
      intro x hx
      have hspec := cycleThrough_spec hg (hnodes.imp ne_of_lt) (List.mem_of_mem_head? hfirst)
      rw [hC.eq_of_mem ha]
      exact (mem_component_iff_connected hg haa).mp (component_eq_of_mem hg hb ▸ hspec.2.2 x hx)
    refine ⟨_, ⟨hcycle, hin⟩, fun other hother => ?_⟩
    exact cycle_unique hg (hnodes.imp ne_of_lt) hC hother.1 hcycle hother.2 hin
  none := by
    intro C hC hnone cycle hcycle x hx hxC
    obtain ⟨-, a, -, -, hin⟩ := cycle_spec hg (hnodes.imp ne_of_lt) hcycle
    obtain ⟨hax, hxa⟩ := (mem_component hg).mp (hin x hx)
    exact hnone ⟨x, hxC, hxa.trans hax⟩
  sorted := ⟨_, map_head?_cycles hg (hnodes.imp ne_of_lt), hnodes.filter _⟩
  empty := cycles_eq_nil_iff hg

end LinearOrder

/-- Two components with circles, an edge from one to the other, a repeated edge, and a node with an
edge to itself. -/
theorem cycles_exact_repeated :
    let g : Graph Nat := ⟨[0, 1, 2, 3, 4, 5],
      [(3, 4), (4, 3), (0, 1), (1, 2), (2, 0), (1, 2), (2, 3), (5, 5)]⟩
    g.Closed ∧ g.nodes.Pairwise (· < ·) ∧ g.ListsCycles g.cycles := by
  intro g
  have hg : g.Closed := by
    intro a b hab
    have hall : ∀ e ∈ g.edges, e.1 ∈ g.nodes ∧ e.2 ∈ g.nodes := by decide
    exact hall (a, b) hab
  have hnodes : g.nodes.Pairwise (· < ·) := by decide
  exact ⟨hg, hnodes, cycles_exact hg hnodes⟩

end Graph

end Mixin
