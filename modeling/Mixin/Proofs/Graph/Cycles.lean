import Mathlib.Data.List.Chain
import Mathlib.Data.List.Nodup
import Mixin.Analysis.Supertypes
import Mixin.Proofs.Graph.Traversal

/-!
# Components and cycles

The component of a node consists of the nodes that lie on a common closed walk with it
(`mem_component`), so components are equal or have no node in common. `Graph.cycles` lists for each
component that has a closed walk one circle in it: a list of different nodes with an edge from each
to the next and from the last to the first.
-/

namespace Mixin

open Relation

namespace Graph

variable {α : Type} {g : Graph α}

def Edge (g : Graph α) (a b : α) : Prop := (a, b) ∈ g.edges

def Closed (g : Graph α) : Prop := ∀ a b, g.Edge a b → a ∈ g.nodes ∧ b ∈ g.nodes

/-- No walk leads from a node back to it. -/
def Acyclic (g : Graph α) : Prop := ∀ a, ¬ TransGen g.Edge a a

/-! ### Circles -/

/-- A circle: different nodes, with an edge from each to the next and from the last to the first. -/
structure IsCycle (g : Graph α) (cycle : List α) : Prop where
  ne_nil : cycle ≠ []
  nodup : cycle.Nodup
  links : ∀ link ∈ cycleLinks cycle, g.Edge link.1 link.2

theorem rel_of_mem_zip {R : α → α → Prop} {a b : α} {rest : List α}
    (h : (a :: (rest ++ [b])).IsChain R) :
    ∀ link ∈ (a :: rest).zip (rest ++ [b]), R link.1 link.2 := by
  induction rest generalizing a with
  | nil =>
    intro link hlink
    simp only [List.nil_append, List.zip_cons_cons, List.zip_nil_right, List.mem_singleton] at hlink
    rw [hlink]
    exact h.rel
  | cons c rest ih =>
    intro link hlink
    simp only [List.cons_append, List.zip_cons_cons, List.mem_cons] at hlink
    rcases hlink with hlink | hlink
    · rw [hlink]
      exact h.rel
    · exact ih h.tail link (by simpa only [List.zip_cons_cons, List.mem_cons] using hlink)

/-- What the path of a pending node tells: it leads backwards from the node to `start`, within the
component and through nodes that are not to be visited again. -/
structure Trail (g : Graph α) (start : α) (component unvisited : List α) (a : α) (path : List α) :
    Prop where
  last : path.getLast? = some start
  nodup : path.Nodup
  visited : ∀ x ∈ path, x ∈ unvisited → x = start
  inside : ∀ x ∈ path, x ∈ component
  chain : (a :: path).IsChain fun x y => g.Edge y x

theorem Trail.isCycle {start : α} {component unvisited path : List α}
    (h : g.Trail start component unvisited start path) :
    g.IsCycle path.reverse ∧ path.reverse.head? = some start := by
  have hhead : path.reverse.head? = some start := by
    rw [List.head?_reverse]
    exact h.last
  have hchain : (path.reverse ++ [start]).IsChain g.Edge := by
    rw [← List.reverse_cons, List.isChain_reverse]
    exact h.chain
  refine ⟨⟨?_, List.nodup_reverse.mpr h.nodup, ?_⟩, hhead⟩
  · intro hnil
    simp [hnil] at hhead
  · cases hpath : path.reverse with
    | nil => simp [hpath] at hhead
    | cons first rest =>
      rw [hpath] at hchain hhead
      obtain rfl : first = start := by simpa using hhead
      exact rel_of_mem_zip hchain

theorem Trail.mono {start : α} {component unvisited fewer : List α} {a : α} {path : List α}
    (h : g.Trail start component unvisited a path) (hsub : fewer ⊆ unvisited) :
    g.Trail start component fewer a path :=
  ⟨h.last, h.nodup, fun x hx hxu => h.visited x hx (hsub hxu), h.inside, h.chain⟩

variable [DecidableEq α]

theorem mem_successors {a b : α} : b ∈ g.successors a ↔ g.Edge a b := by
  simp only [successors, Edge, List.mem_reverse, List.mem_map, List.mem_filter, decide_eq_true_eq]
  constructor
  · rintro ⟨⟨x, y⟩, ⟨he, rfl⟩, rfl⟩
    exact he
  · intro he
    exact ⟨(a, b), ⟨he, rfl⟩, rfl⟩

theorem mem_predecessors {a b : α} : b ∈ g.predecessors a ↔ g.Edge b a := by
  simp only [predecessors, Edge, List.mem_reverse, List.mem_map, List.mem_filter,
    decide_eq_true_eq]
  constructor
  · rintro ⟨⟨x, y⟩, ⟨he, rfl⟩, rfl⟩
    exact he
  · intro he
    exact ⟨(b, a), ⟨he, rfl⟩, rfl⟩

/-! ### Components -/

theorem mem_reachable (hg : g.Closed) {a b : α} : b ∈ g.reachable a ↔ TransGen g.Edge a b :=
  mem_explore_successors g.successors (fun _ _ => mem_successors) fun x y he => (hg x y he).2

theorem mem_reaching (hg : g.Closed) {a b : α} : b ∈ g.reaching a ↔ TransGen g.Edge b a := by
  rw [← transGen_swap]
  exact mem_explore_successors g.predecessors (fun _ _ => mem_predecessors)
    fun x y he => (hg y x he).1

theorem mem_component (hg : g.Closed) {a b : α} :
    b ∈ g.component a ↔ TransGen g.Edge a b ∧ TransGen g.Edge b a := by
  unfold component
  by_cases ha : a ∈ g.reachable a
  · simp only [ha, if_true, List.mem_filter, mem_reachable hg, mem_reaching hg, decide_eq_true_eq]
    constructor
    · exact fun h => h.2
    · intro h
      obtain ⟨c, -, hcb⟩ := TransGen.tail'_iff.mp h.1
      exact ⟨(hg c b hcb).2, h⟩
  · simp only [ha, if_false, List.not_mem_nil, false_iff, not_and]
    intro hab hba
    exact ha ((mem_reachable hg).mpr (hab.trans hba))

theorem component_eq_filter {a : α} (ha : a ∈ g.reachable a) :
    g.component a = g.nodes.filter fun b => b ∈ g.reachable a ∧ b ∈ g.reaching a := by
  unfold component
  rw [if_pos ha]

theorem component_eq_of_mem (hg : g.Closed) {a b : α} (hb : b ∈ g.component a) :
    g.component b = g.component a := by
  obtain ⟨hab, hba⟩ := (mem_component hg).mp hb
  have ha : a ∈ g.reachable a := (mem_reachable hg).mpr (hab.trans hba)
  have hb : b ∈ g.reachable b := (mem_reachable hg).mpr (hba.trans hab)
  rw [component_eq_filter ha, component_eq_filter hb]
  refine List.filter_congr fun c _ => ?_
  simp only [mem_reachable hg, mem_reaching hg, decide_eq_decide]
  constructor
  · rintro ⟨hbc, hcb⟩
    exact ⟨hab.trans hbc, hcb.trans hba⟩
  · rintro ⟨hac, hca⟩
    exact ⟨hba.trans hac, hca.trans hab⟩

theorem component_sublist (g : Graph α) (a : α) : (g.component a).Sublist g.nodes := by
  by_cases ha : a ∈ g.reachable a
  · rw [component_eq_filter ha]
    exact List.filter_sublist
  · simp only [component, ha, if_false, List.nil_sublist]

/-! ### The search for a circle -/

theorem Trail.extend {start : α} {component unvisited : List α} {a b : α} {path : List α}
    (h : g.Trail start component unvisited a path) (hne : a ≠ start) (hmem : a ∈ unvisited)
    (hnodup : unvisited.Nodup) (hsub : unvisited ⊆ component) (hb : g.Edge a b) :
    g.Trail start component (unvisited.erase a) b (a :: path) where
  last := by
    have hpath : path ≠ [] := by
      intro hnil
      have hlast := h.last
      simp [hnil] at hlast
    rw [List.getLast?_cons_of_ne_nil hpath]
    exact h.last
  nodup := by
    refine List.nodup_cons.mpr ⟨?_, h.nodup⟩
    intro hin
    exact hne (h.visited a hin hmem)
  visited := by
    intro x hx hxu
    rcases List.mem_cons.mp hx with rfl | hx
    -- The node itself is erased from what is to be visited, which holds it once.
    · exact absurd hxu hnodup.not_mem_erase
    · exact h.visited x hx (List.mem_of_mem_erase hxu)
  inside := by
    intro x hx
    rcases List.mem_cons.mp hx with rfl | hx
    · exact hsub hmem
    · exact h.inside x hx
  chain := h.chain.cons_cons hb

theorem isCycle_of_search {start : α} {component unvisited cycle : List α}
    {pending : List (α × List α)} (hnodup : unvisited.Nodup) (hsub : unvisited ⊆ component)
    (htrail : ∀ p ∈ pending, g.Trail start component unvisited p.1 p.2)
    (h : g.search start unvisited pending = some cycle) :
    g.IsCycle cycle ∧ cycle.head? = some start ∧ ∀ x ∈ cycle, x ∈ component := by
  induction unvisited, pending using search.induct g start with
  | case1 =>
    rw [search] at h
    cases h
  | case2 unvisited path rest =>
    rw [search, if_pos rfl] at h
    cases h
    have hpath := htrail _ (List.mem_cons_self ..)
    obtain ⟨hcycle, hhead⟩ := hpath.isCycle
    exact ⟨hcycle, hhead, fun x hx => hpath.inside x (List.mem_reverse.mp hx)⟩
  | case3 unvisited a path rest hne hmem ih =>
    rw [search, if_neg hne, dif_pos hmem] at h
    refine ih (hnodup.erase a) (fun x hx => hsub (List.mem_of_mem_erase hx)) ?_ h
    intro p hp
    rcases List.mem_append.mp hp with hp | hp
    · obtain ⟨b, hb, rfl⟩ := List.mem_map.mp hp
      exact (htrail _ (List.mem_cons_self ..)).extend hne hmem hnodup hsub (mem_successors.mp hb)
    · exact (htrail p (List.mem_cons_of_mem _ hp)).mono fun x hx => List.mem_of_mem_erase hx
  | case4 unvisited a path rest hne hmem ih =>
    rw [search, if_neg hne, dif_neg hmem] at h
    exact ih hnodup hsub (fun p hp => htrail p (List.mem_cons_of_mem _ hp)) h

theorem not_edge_of_search_eq_none {start : α} {unvisited : List α} {pending : List (α × List α)}
    (h : g.search start unvisited pending = none) :
    (∀ p ∈ pending, p.1 ≠ start) ∧
      ∀ x ∈ explore g.successors unvisited (pending.map (·.1)), ¬ g.Edge x start := by
  induction unvisited, pending using search.induct g start with
  | case1 => simp [explore_nil]
  | case2 unvisited path rest =>
    rw [search, if_pos rfl] at h
    cases h
  | case3 unvisited a path rest hne hmem ih =>
    rw [search, if_neg hne, dif_pos hmem] at h
    obtain ⟨hpending, hfound⟩ := ih h
    constructor
    · intro p hp
      rcases List.mem_cons.mp hp with rfl | hp
      · exact hne
      · exact hpending p (List.mem_append_right _ hp)
    · intro x hx hedge
      rw [List.map_cons, explore_of_mem g.successors hmem] at hx
      rcases List.mem_cons.mp hx with rfl | hx
      · have hin : (start, x :: path) ∈ (g.successors x).map (·, x :: path) ++ rest :=
          List.mem_append_left _ (List.mem_map.mpr ⟨start, mem_successors.mpr hedge, rfl⟩)
        exact hpending _ hin rfl
      · refine hfound x ?_ hedge
        simpa only [List.map_append, List.map_map, Function.comp_def, List.map_id'] using hx
  | case4 unvisited a path rest hne hmem ih =>
    rw [search, if_neg hne, dif_neg hmem] at h
    obtain ⟨hpending, hfound⟩ := ih h
    constructor
    · intro p hp
      rcases List.mem_cons.mp hp with rfl | hp
      · exact hne
      · exact hpending p hp
    · intro x hx
      rw [List.map_cons, explore_of_not_mem g.successors hmem] at hx
      exact hfound x hx

theorem enters_component (hg : g.Closed) {start x c : α} (hx : TransGen g.Edge start x)
    (hxc : ReflTransGen g.Edge x c) (hc : g.Edge c start) :
    ReflTransGen (Enters g.successors (g.component start)) x c := by
  induction hxc using ReflTransGen.head_induction_on with
  | refl => exact ReflTransGen.refl
  | head hxy hyc ih =>
    -- A walk that comes back to the start stays in the component of the start.
    have hy := hx.tail hxy
    exact (ih hy).head ⟨mem_successors.mpr hxy,
      (mem_component hg).mpr ⟨hy, TransGen.tail' hyc hc⟩⟩

/-- From a node that lies on a closed walk, the search finds a circle in the component. -/
theorem cycleThrough_spec (hg : g.Closed) (hnodes : g.nodes.Nodup) {start : α}
    (hstart : start ∈ g.component start) :
    g.IsCycle (g.cycleThrough (g.component start) start) ∧
      (g.cycleThrough (g.component start) start).head? = some start ∧
      ∀ x ∈ g.cycleThrough (g.component start) start, x ∈ g.component start := by
  unfold cycleThrough
  by_cases hloop : (start, start) ∈ g.edges
  · rw [if_pos hloop]
    refine ⟨⟨List.cons_ne_nil _ _, List.nodup_singleton _, ?_⟩, rfl, ?_⟩
    · intro link hlink
      obtain rfl : link = (start, start) := by simpa [cycleLinks] using hlink
      exact hloop
    · intro x hx
      rw [List.mem_singleton.mp hx]
      exact hstart
  · rw [if_neg hloop]
    -- A failed search contradicts the last edge of a closed walk through `start`.
    cases hfound : g.search start (g.component start) ((g.successors start).map (·, [start])) with
    | none =>
      exfalso
      obtain ⟨c, hpath, hc⟩ := TransGen.tail'_iff.mp ((mem_component hg).mp hstart).1
      rcases hpath.cases_head with rfl | ⟨p, hp, hpc⟩
      · exact hloop hc
      · refine (not_edge_of_search_eq_none hfound).2 c ?_ hc
        simp only [List.map_map, Function.comp_def, List.map_id']
        refine (mem_explore_iff _).mpr ⟨p, mem_successors.mpr hp, ?_, ?_⟩
        · exact (mem_component hg).mpr ⟨TransGen.single hp, TransGen.tail' hpc hc⟩
        · exact enters_component hg (TransGen.single hp) hpc hc
    | some cycle =>
      refine isCycle_of_search (hnodes.sublist (g.component_sublist start)) (fun _ h => h) ?_ hfound
      intro p hp
      obtain ⟨b, hb, rfl⟩ := List.mem_map.mp hp
      exact
        { last := rfl
          nodup := List.nodup_singleton _
          visited := fun x hx _ => List.mem_singleton.mp hx
          inside := fun x hx => List.mem_singleton.mp hx ▸ hstart
          chain := List.IsChain.cons_cons (mem_successors.mp hb) (List.IsChain.singleton _) }

/-! ### One circle for each component -/

theorem mem_cycles {cycle : List α} :
    cycle ∈ g.cycles ↔ ∃ a ∈ g.nodes, (g.component a).head? = some a ∧
      g.cycleThrough (g.component a) a = cycle := by
  simp only [cycles, List.mem_filterMap, Option.ite_none_right_eq_some, Option.some.injEq]

/-- Every listed circle is one, and starts at the first node of its component. -/
theorem cycle_spec (hg : g.Closed) (hnodes : g.nodes.Nodup) {cycle : List α} (h : cycle ∈ g.cycles)
    :
    g.IsCycle cycle ∧ ∃ a, cycle.head? = some a ∧ (g.component a).head? = some a ∧
      ∀ x ∈ cycle, x ∈ g.component a := by
  obtain ⟨a, -, hhead, rfl⟩ := mem_cycles.mp h
  have hspec := cycleThrough_spec hg hnodes (List.mem_of_mem_head? hhead)
  exact ⟨hspec.1, a, hspec.2.1, hhead, hspec.2.2⟩

theorem exists_leader (hg : g.Closed) {a : α} (haa : TransGen g.Edge a a) :
    ∃ b ∈ g.component a, b ∈ g.nodes ∧ (g.component b).head? = some b := by
  have ha : a ∈ g.component a := (mem_component hg).mpr ⟨haa, haa⟩
  obtain ⟨b, hb⟩ : ∃ b, (g.component a).head? = some b := by
    rw [← Option.isSome_iff_exists, List.isSome_head?]
    exact List.ne_nil_of_mem ha
  have hmem : b ∈ g.component a := List.mem_of_mem_head? hb
  exact ⟨b, hmem, (g.component_sublist a).subset hmem, component_eq_of_mem hg hmem ▸ hb⟩

/-- Circles are listed as long as there is a closed walk. -/
theorem cycles_eq_nil_iff (hg : g.Closed) : g.cycles = [] ↔ g.Acyclic := by
  constructor
  · intro hnil a haa
    obtain ⟨b, -, hb, hhead⟩ := exists_leader hg haa
    have hcycle : g.cycleThrough (g.component b) b ∈ g.cycles := mem_cycles.mpr ⟨b, hb, hhead, rfl⟩
    rw [hnil] at hcycle
    exact List.not_mem_nil hcycle
  · intro hacyclic
    rw [List.eq_nil_iff_forall_not_mem]
    intro cycle hcycle
    obtain ⟨a, -, hhead, -⟩ := mem_cycles.mp hcycle
    exact hacyclic a ((mem_component hg).mp (List.mem_of_mem_head? hhead)).1

theorem cycles_disjoint (hg : g.Closed) (hnodes : g.nodes.Nodup) :
    g.cycles.Pairwise List.Disjoint := by
  refine List.pairwise_filterMap.mpr (hnodes.imp ?_)
  intro a b hne cycle hcycle other hother x hx hy
  simp only [Option.ite_none_right_eq_some, Option.some.injEq] at hcycle hother
  obtain ⟨hahead, rfl⟩ := hcycle
  obtain ⟨hbhead, rfl⟩ := hother
  have hxa := (cycleThrough_spec hg hnodes (List.mem_of_mem_head? hahead)).2.2 x hx
  have hxb := (cycleThrough_spec hg hnodes (List.mem_of_mem_head? hbhead)).2.2 x hy
  have heq := (component_eq_of_mem hg hxa).symm.trans (component_eq_of_mem hg hxb)
  rw [heq, hbhead] at hahead
  exact hne (Option.some.inj hahead).symm

end Graph

end Mixin
