import Mathlib.Data.List.Forall2
import Mixin.Proofs.Graph.Cycles
import Mixin.Proofs.Symbol.Hierarchy

/-!
# Breaking circles of inheritance

While circles are cut out of a hierarchy, every inheritance is recorded twice: as an edge of the
graph in which circles are sought, and as the superclass or a trait of a type in the symbol table.
`Untangling.Sound` says that the table holds nothing for which there is no edge, and
`Untangling.InStep` that both records agree. The circles of one round have no type in common, so
each still stands when it is reported; so each round drops an edge, and the last round finds none.
-/

namespace Mixin

open Relation

/-! ### Types that lose supertypes -/

namespace ClassInfo

/-- The type without those of its supertypes that are dropped; the others keep their roles and
their order. -/
def without (c : ClassInfo) (dropped : ClassId → Bool) : ClassInfo :=
  { c with
    superclass := c.superclass.filter fun p => !dropped p
    traits := c.traits.filter fun p => !dropped p }

theorem without_false (c : ClassInfo) : c.without (fun _ => false) = c := by
  obtain ⟨decl, members, superclass, traits⟩ := c
  cases superclass <;> simp [without]

theorem without_without (c : ClassInfo) (f g : ClassId → Bool) :
    (c.without f).without g = c.without fun p => f p || g p := by
  obtain ⟨decl, members, superclass, traits⟩ := c
  simp only [without, List.filter_filter, Bool.not_or, Bool.and_comm, ClassInfo.mk.injEq, true_and,
    and_true]
  cases superclass with
  | none => rfl
  | some p => cases hf : f p <;> cases hg : g p <;> simp [Option.filter, hf, hg]

theorem mem_directSupertypes_without {c : ClassInfo} {dropped : ClassId → Bool} {p : ClassId} :
    p ∈ (c.without dropped).directSupertypes ↔ p ∈ c.directSupertypes ∧ dropped p = false := by
  simp only [directSupertypes, without, List.mem_append, Option.mem_toList, List.mem_filter,
    Option.filter_eq_some_iff, Bool.not_eq_true']
  exact or_and_right.symm

end ClassInfo

theorem SymbolTable.classInfo_removeSupertype (t : SymbolTable) (id parent c : ClassId) :
    (t.removeSupertype id parent).classInfo c =
      (t.classInfo c).without fun p => decide ((c, p) = (id, parent)) := by
  rw [removeSupertype, classInfo_modifyClass _ rfl]
  by_cases hc : c = id
  · rw [if_pos hc]
    simp [ClassInfo.without, hc]
  · rw [if_neg hc]
    simp [hc, ClassInfo.without_false]

/-! ### Links of a circle -/

theorem mem_of_mem_cycleLinks {α : Type} {cycle : List α} {link : α × α}
    (h : link ∈ cycleLinks cycle) : link.1 ∈ cycle ∧ link.2 ∈ cycle := by
  cases cycle with
  | nil => simp [cycleLinks] at h
  | cons first rest =>
    have hzip : (link.1, link.2) ∈ (first :: rest).zip (rest ++ [first]) := h
    have hmem := List.of_mem_zip hzip
    refine ⟨hmem.1, ?_⟩
    simpa [or_comm] using hmem.2

theorem cycleLinks_map_fst {α : Type} (cycle : List α) : (cycleLinks cycle).map (·.1) = cycle := by
  cases cycle with
  | nil => rfl
  | cons first rest => exact List.map_fst_zip (by simp)

theorem transGen_of_zip {α : Type} {R : α → α → Prop} {a b : α} {rest : List α}
    (h : ∀ link ∈ (a :: rest).zip (rest ++ [b]), R link.1 link.2) : TransGen R a b := by
  induction rest generalizing a with
  | nil => exact TransGen.single (h (a, b) (by simp))
  | cons c rest ih =>
    have hac : R a c := h (a, c) (by simp)
    refine TransGen.head hac (ih fun link hlink => h link ?_)
    simp only [List.cons_append, List.zip_cons_cons, List.mem_cons]
    exact Or.inr (by simpa only [List.zip_cons_cons, List.mem_cons] using hlink)

theorem Graph.IsCycle.transGen {α : Type} {g : Graph α} {cycle : List α} (h : g.IsCycle cycle) :
    ∃ a, TransGen g.Edge a a := by
  cases cycle with
  | nil => exact absurd rfl h.ne_nil
  | cons first rest => exact ⟨first, transGen_of_zip h.links⟩

namespace Untangling

/-! ### One circle -/

theorem edge_graph {u : Untangling} {a b : ClassId} :
    u.graph.Edge a b ↔ ∃ e ∈ u.edges, e.heir = a ∧ e.parent = b := by
  simp [Graph.Edge, graph]

theorem edge_eq (u : Untangling) :
    u.graph.Edge = fun heir parent => ∃ e ∈ u.edges, e.heir = heir ∧ e.parent = parent := by
  funext heir parent
  exact propext edge_graph

theorem classInfo_dropLinks (links : List (ClassId × ClassId)) (u : Untangling) (c : ClassId) :
    (links.foldl dropLink u).symbols.classInfo c =
      (u.symbols.classInfo c).without fun p => decide ((c, p) ∈ links) := by
  induction links generalizing u with
  | nil => simp [ClassInfo.without_false]
  | cons link links ih =>
    rw [List.foldl_cons, ih]
    simp only [dropLink, SymbolTable.classInfo_removeSupertype, ClassInfo.without_without,
      List.mem_cons, Bool.decide_or]

theorem edges_dropLinks (links : List (ClassId × ClassId)) (u : Untangling) :
    (links.foldl dropLink u).edges = u.edges.filter fun e => (e.heir, e.parent) ∉ links := by
  induction links generalizing u with
  | nil => simp
  | cons link links ih =>
    rw [List.foldl_cons, ih]
    simp only [dropLink, List.filter_filter, List.mem_cons, not_or, Bool.decide_and]
    refine List.filter_congr fun e _ => ?_
    rw [Bool.and_comm]
    simp [Prod.ext_iff]

theorem frame_dropLinks (links : List (ClassId × ClassId)) (u : Untangling) :
    (links.foldl dropLink u).symbols.classes.size = u.symbols.classes.size ∧
      (links.foldl dropLink u).symbols.fields = u.symbols.fields ∧
      (links.foldl dropLink u).symbols.methods = u.symbols.methods ∧
      (links.foldl dropLink u).diagnostics = u.diagnostics := by
  induction links generalizing u with
  | nil => exact ⟨rfl, rfl, rfl, rfl⟩
  | cons link links ih =>
    obtain ⟨hsize, hfields, hmethods, hdiagnostics⟩ := ih (u.dropLink link)
    rw [List.foldl_cons]
    exact ⟨hsize.trans (SymbolTable.size_removeSupertype ..), hfields, hmethods, hdiagnostics⟩

/-- What is reported of a circle: the name of each type in it, and the place where that type says
that it inherits from the next one. -/
def described (u : Untangling) (cycle : List ClassId) : List Ident :=
  (cycleLinks cycle).map u.describeLink

theorem breakCycle_of_described {u : Untangling} {cycle : List ClassId} {first : Ident}
    {rest : List Ident} (h : u.described cycle = first :: rest) :
    u.breakCycle cycle = (cycleLinks cycle).foldl dropLink
      { u with
        diagnostics := u.diagnostics ++ [.cyclicInheritance first rest]
        events := u.events ++ [.cycleBroken (cycleLinks cycle).length] } := by
  simp only [described] at h
  simp only [breakCycle, h]

theorem described_ne_nil (u : Untangling) {cycle : List ClassId} (h : cycle ≠ []) :
    ∃ first rest, u.described cycle = first :: rest := by
  refine List.exists_cons_of_ne_nil fun hnil => h ?_
  rw [← cycleLinks_map_fst cycle, List.map_eq_nil_iff.mp hnil, List.map_nil]

variable {u : Untangling} {cycle : List ClassId}

section Cycle

variable (h : cycle ≠ [])
include h

theorem classInfo_breakCycle (c : ClassId) :
    (u.breakCycle cycle).symbols.classInfo c =
      (u.symbols.classInfo c).without fun p => decide ((c, p) ∈ cycleLinks cycle) := by
  obtain ⟨first, rest, hd⟩ := u.described_ne_nil h
  rw [breakCycle_of_described hd, classInfo_dropLinks]

theorem edges_breakCycle :
    (u.breakCycle cycle).edges =
      u.edges.filter fun e => (e.heir, e.parent) ∉ cycleLinks cycle := by
  obtain ⟨first, rest, hd⟩ := u.described_ne_nil h
  rw [breakCycle_of_described hd, edges_dropLinks]

theorem classIds_breakCycle : (u.breakCycle cycle).symbols.classIds = u.symbols.classIds := by
  obtain ⟨first, rest, hd⟩ := u.described_ne_nil h
  rw [breakCycle_of_described hd, SymbolTable.classIds, (frame_dropLinks _ _).1]
  rfl

theorem members_breakCycle :
    (u.breakCycle cycle).symbols.fields = u.symbols.fields ∧
      (u.breakCycle cycle).symbols.methods = u.symbols.methods := by
  obtain ⟨first, rest, hd⟩ := u.described_ne_nil h
  rw [breakCycle_of_described hd]
  exact ⟨(frame_dropLinks _ _).2.1, (frame_dropLinks _ _).2.2.1⟩

theorem edge_breakCycle {a b : ClassId} :
    (u.breakCycle cycle).graph.Edge a b ↔ u.graph.Edge a b ∧ (a, b) ∉ cycleLinks cycle := by
  simp only [edge_graph, edges_breakCycle h, List.mem_filter, decide_eq_true_eq]
  constructor
  · rintro ⟨e, ⟨he, hlink⟩, rfl, rfl⟩
    exact ⟨⟨e, he, rfl, rfl⟩, hlink⟩
  · rintro ⟨⟨e, he, rfl, rfl⟩, hlink⟩
    exact ⟨e, ⟨he, hlink⟩, rfl, rfl⟩

theorem inherits_breakCycle {a b : ClassId} :
    (u.breakCycle cycle).symbols.Inherits a b ↔
      u.symbols.Inherits a b ∧ (a, b) ∉ cycleLinks cycle := by
  simp only [SymbolTable.Inherits, classInfo_breakCycle h, ClassInfo.mem_directSupertypes_without,
    decide_eq_false_iff_not]

end Cycle

theorem length_edges_breakCycle (h : u.graph.IsCycle cycle) :
    (u.breakCycle cycle).edges.length < u.edges.length := by
  obtain ⟨link, hlink⟩ : ∃ link, link ∈ cycleLinks cycle := by
    refine List.exists_mem_of_ne_nil _ fun hnil => h.ne_nil ?_
    rw [← cycleLinks_map_fst cycle, hnil, List.map_nil]
  obtain ⟨e, he, hheir, hparent⟩ := edge_graph.mp (h.links link hlink)
  rw [edges_breakCycle h.ne_nil]
  refine List.length_filter_lt_length_iff_exists.mpr ⟨e, he, ?_⟩
  have heq : (e.heir, e.parent) = link := by
    rw [hheir, hparent]
  simp [heq, hlink]

theorem isCycle_breakCycle {other : List ClassId} (hcycle : cycle ≠ [])
    (hdisjoint : cycle.Disjoint other) (h : u.graph.IsCycle other) :
    (u.breakCycle cycle).graph.IsCycle other where
  ne_nil := h.ne_nil
  nodup := h.nodup
  links := by
    intro link hlink
    refine (edge_breakCycle hcycle).mpr ⟨h.links link hlink, fun hin => ?_⟩
    exact hdisjoint (mem_of_mem_cycleLinks hin).1 (mem_of_mem_cycleLinks hlink).1

/-! ### The invariant -/

/-- Edges and symbol table describe the same pairs. -/
def InStep (u : Untangling) : Prop :=
  ∀ heir parent, (∃ e ∈ u.edges, e.heir = heir ∧ e.parent = parent) ↔
    u.symbols.Inherits heir parent

/-- Every pair in the symbol table is that of an edge, and the types of the edges exist. -/
structure Sound (u : Untangling) : Prop where
  backed : ∀ heir parent, u.symbols.Inherits heir parent → u.graph.Edge heir parent
  known : ∀ e ∈ u.edges, e.heir ∈ u.symbols.classIds ∧ e.parent ∈ u.symbols.classIds

theorem InStep.edge_iff (h : u.InStep) {a b : ClassId} :
    u.graph.Edge a b ↔ u.symbols.Inherits a b :=
  edge_graph.trans (h a b)

theorem InStep.breakCycle (h : u.InStep) (hcycle : cycle ≠ []) : (u.breakCycle cycle).InStep := by
  intro a b
  rw [← edge_graph, edge_breakCycle hcycle, inherits_breakCycle hcycle, h.edge_iff]

theorem Sound.closed (h : u.Sound) : u.graph.Closed := by
  intro a b hab
  obtain ⟨e, he, rfl, rfl⟩ := edge_graph.mp hab
  exact h.known e he

theorem Sound.breakCycle (h : u.Sound) (hcycle : cycle ≠ []) : (u.breakCycle cycle).Sound where
  backed := by
    intro a b
    rw [edge_breakCycle hcycle, inherits_breakCycle hcycle]
    exact And.imp_left (h.backed a b)
  known := by
    intro e he
    rw [edges_breakCycle hcycle] at he
    rw [classIds_breakCycle hcycle]
    exact h.known e (List.mem_of_mem_filter he)

/-! ### Circles one after another -/

/-- No type in the circle is older than the one with which it begins. -/
def StartsLeast (cycle : List ClassId) : Prop :=
  ∀ first ∈ cycle.head?, ∀ c ∈ cycle, first.index ≤ c.index

/-- `last` comes from `u` by breaking the circles one after another. Each of them consists of edges
that are still there when it is its turn, and begins with its oldest type. -/
inductive Breaks : Untangling → List (List ClassId) → Untangling → Prop where
  | done (u : Untangling) : Breaks u [] u
  | step {u last : Untangling} {cycle : List ClassId} {cycles : List (List ClassId)} :
    u.graph.IsCycle cycle → StartsLeast cycle → Breaks (u.breakCycle cycle) cycles last →
    Breaks u (cycle :: cycles) last

variable {last : Untangling} {cycles : List (List ClassId)}

theorem Breaks.append {w : Untangling} {later : List (List ClassId)} (h : u.Breaks cycles last)
    (h' : last.Breaks later w) : u.Breaks (cycles ++ later) w := by
  induction h with
  | done u => exact h'
  | step hcycle hleast _ ih => exact .step hcycle hleast (ih h')

theorem Breaks.sound (h : u.Breaks cycles last) (hu : u.Sound) : last.Sound := by
  induction h with
  | done u => exact hu
  | step hcycle _ _ ih => exact ih (hu.breakCycle hcycle.ne_nil)

theorem Breaks.inStep (h : u.Breaks cycles last) (hu : u.InStep) : last.InStep := by
  induction h with
  | done u => exact hu
  | step hcycle _ _ ih => exact ih (hu.breakCycle hcycle.ne_nil)

theorem Breaks.length_edges (h : u.Breaks cycles last) :
    last.edges.length + cycles.length ≤ u.edges.length := by
  induction h with
  | done u => simp
  | step hcycle _ _ ih =>
    have hlt := length_edges_breakCycle hcycle
    rw [List.length_cons]
    omega

/-- What is left of a type: it has lost the supertypes to which links of the circles lead. -/
theorem Breaks.classInfo (h : u.Breaks cycles last) (c : ClassId) :
    last.symbols.classInfo c =
      (u.symbols.classInfo c).without fun p => decide ((c, p) ∈ cycles.flatMap cycleLinks) := by
  induction h with
  | done u => simp [ClassInfo.without_false]
  | step hcycle _ _ ih =>
    rw [ih, classInfo_breakCycle hcycle.ne_nil, ClassInfo.without_without]
    simp only [List.flatMap_cons, List.mem_append, Bool.decide_or]

/-- The problem `d` tells of the circle: it gives for each link the name of the type that inherits
and the place of an edge between the two types. -/
def Reports (u : Untangling) (cycle : List ClassId) (d : Diagnostic) : Prop :=
  ∃ first rest, d = .cyclicInheritance first rest ∧
    List.Forall₂
      (fun link name => name.text = (u.symbols.classInfo link.1).name ∧
        (⟨link.1, link.2, name.span⟩ : Inheritance) ∈ u.edges)
      (cycleLinks cycle) (first :: rest)

theorem describeLink_spec {link : ClassId × ClassId} (h : u.graph.Edge link.1 link.2) :
    (⟨link.1, link.2, (u.describeLink link).span⟩ : Inheritance) ∈ u.edges := by
  obtain ⟨e, he, hheir, hparent⟩ := edge_graph.mp h
  cases hfound : u.edges.find? fun e => e.heir = link.1 ∧ e.parent = link.2 with
  | none =>
    have hnone := List.find?_eq_none.mp hfound e he
    simp [hheir, hparent] at hnone
  | some found =>
    have hends : found.heir = link.1 ∧ found.parent = link.2 := by
      simpa using List.find?_some hfound
    have hspan : (u.describeLink link).span = found.span := by
      simp only [describeLink, hfound, Option.map_some, Option.getD_some]
    rw [hspan, ← hends.1, ← hends.2]
    exact List.mem_of_find?_eq_some hfound

theorem reports_breakCycle (h : u.graph.IsCycle cycle) :
    ∃ d, (u.breakCycle cycle).diagnostics = u.diagnostics ++ [d] ∧ u.Reports cycle d := by
  obtain ⟨first, rest, hd⟩ := u.described_ne_nil h.ne_nil
  refine ⟨.cyclicInheritance first rest, ?_, first, rest, rfl, ?_⟩
  · rw [breakCycle_of_described hd, (frame_dropLinks _ _).2.2.2]
  · rw [← hd, described, List.forall₂_map_right_iff, List.forall₂_same]
    exact fun link hlink => ⟨rfl, describeLink_spec (h.links link hlink)⟩

/-- What is reported of the rest of the hierarchy after a circle was broken holds of the hierarchy
before. -/
theorem Reports.of_breakCycle (h : cycle ≠ []) {other : List ClassId} {d : Diagnostic}
    (hd : (u.breakCycle cycle).Reports other d) : u.Reports other d := by
  obtain ⟨first, rest, rfl, hnames⟩ := hd
  refine ⟨first, rest, rfl, hnames.imp ?_⟩
  rintro link name ⟨hname, hedge⟩
  rw [classInfo_breakCycle h] at hname
  rw [edges_breakCycle h] at hedge
  exact ⟨hname, List.mem_of_mem_filter hedge⟩

theorem Breaks.diagnostics (h : u.Breaks cycles last) :
    ∃ reports, last.diagnostics = u.diagnostics ++ reports ∧
      List.Forall₂ u.Reports cycles reports := by
  induction h with
  | done u => exact ⟨[], by simp, .nil⟩
  | step hcycle _ _ ih =>
    obtain ⟨d, hd, hreports⟩ := reports_breakCycle hcycle
    obtain ⟨later, hlater, hall⟩ := ih
    refine ⟨d :: later, by simp [hlater, hd], .cons hreports ?_⟩
    exact hall.imp fun _ _ hr => hr.of_breakCycle hcycle.ne_nil

theorem Breaks.members (h : u.Breaks cycles last) :
    last.symbols.fields = u.symbols.fields ∧ last.symbols.methods = u.symbols.methods := by
  induction h with
  | done u => exact ⟨rfl, rfl⟩
  | step hcycle _ _ ih =>
    obtain ⟨hfields, hmethods⟩ := members_breakCycle hcycle.ne_nil
    exact ⟨ih.1.trans hfields, ih.2.trans hmethods⟩

theorem Breaks.classIds (h : u.Breaks cycles last) :
    last.symbols.classIds = u.symbols.classIds := by
  induction h with
  | done u => rfl
  | step hcycle _ _ ih => exact ih.trans (classIds_breakCycle hcycle.ne_nil)

theorem breaks_of_disjoint (u : Untangling)
    (hcycles : ∀ cycle ∈ cycles, u.graph.IsCycle cycle ∧ StartsLeast cycle)
    (hdisjoint : cycles.Pairwise List.Disjoint) :
    u.Breaks cycles (cycles.foldl Untangling.breakCycle u) := by
  induction cycles generalizing u with
  | nil => exact .done u
  | cons cycle cycles ih =>
    obtain ⟨hcycle, hleast⟩ := hcycles cycle (List.mem_cons_self ..)
    rw [List.pairwise_cons] at hdisjoint
    refine .step hcycle hleast (ih (u.breakCycle cycle) ?_ hdisjoint.2)
    -- The circles still to come lie apart from this one and stand as they did.
    intro other hother
    obtain ⟨hstands, hleast'⟩ := hcycles other (List.mem_cons_of_mem _ hother)
    exact ⟨isCycle_breakCycle hcycle.ne_nil (hdisjoint.1 other hother) hstands, hleast'⟩

/-! ### Rounds -/

/-- One round: all circles found in the graph are broken. -/
def round (u : Untangling) : Untangling := u.graph.cycles.foldl Untangling.breakCycle u

theorem startsLeast_of_mem_cycles (h : u.Sound) (hcycle : cycle ∈ u.graph.cycles) :
    StartsLeast cycle := by
  obtain ⟨-, a, hhead, hcomponent, hinside⟩ :=
    Graph.cycle_spec h.closed u.symbols.nodup_classIds hcycle
  intro first hfirst c hc
  obtain rfl : a = first := Option.some.inj (hhead.symm.trans hfirst)
  have hpairwise := u.symbols.classIds_pairwise.sublist (u.graph.component_sublist a)
  cases hlist : u.graph.component a with
  | nil => simp [hlist] at hcomponent
  | cons b rest =>
    rw [hlist] at hcomponent hpairwise
    obtain rfl : b = a := by simpa using hcomponent
    have hmem := hinside c hc
    rw [hlist] at hmem
    rcases List.mem_cons.mp hmem with rfl | hmem
    · exact Nat.le_refl _
    · exact Nat.le_of_lt ((List.pairwise_cons.mp hpairwise).1 c hmem)

theorem Sound.breaks_round (h : u.Sound) : u.Breaks u.graph.cycles u.round := by
  refine breaks_of_disjoint u ?_ (Graph.cycles_disjoint h.closed u.symbols.nodup_classIds)
  intro cycle hcycle
  exact ⟨(Graph.cycle_spec h.closed u.symbols.nodup_classIds hcycle).1,
    startsLeast_of_mem_cycles h hcycle⟩

theorem Sound.round (h : u.Sound) : u.round.Sound := h.breaks_round.sound h

theorem Sound.exists_breaks_iterate (h : u.Sound) (n : Nat) :
    ∃ cycles, u.Breaks cycles (Untangling.round^[n] u) := by
  induction n generalizing u with
  | zero => exact ⟨[], .done u⟩
  | succ n ih =>
    obtain ⟨cycles, hlater⟩ := ih h.round
    exact ⟨_, h.breaks_round.append hlater⟩

/-- Rounds go on until no circle is left; none of them is without effect. -/
theorem Sound.breakCycles (h : u.Sound) :
    ∃ n cycles, u.breakCycles = Untangling.round^[n] u ∧ u.Breaks cycles u.breakCycles ∧
      u.breakCycles.graph.Acyclic := by
  induction u using Untangling.breakCycles.induct with
  | case1 u hnil =>
    have heq : u.breakCycles = u := by
      rw [Untangling.breakCycles, hnil]
    rw [heq]
    exact ⟨0, [], rfl, .done u, (Graph.cycles_eq_nil_iff h.closed).mp hnil⟩
  | case2 u cycle cycles hcycles broken hlt ih =>
    have hround : u.round = broken := by
      rw [Untangling.round, hcycles]
    have heq : u.breakCycles = broken.breakCycles := by
      rw [Untangling.breakCycles, hcycles]
      exact if_pos hlt
    have hbreaks := h.breaks_round
    rw [hround] at hbreaks
    obtain ⟨n, later, hiter, hlater, hacyclic⟩ := ih (hbreaks.sound h)
    rw [heq]
    refine ⟨n + 1, u.graph.cycles ++ later, ?_, hbreaks.append hlater, hacyclic⟩
    rw [Function.iterate_succ_apply, hround]
    exact hiter
  | case3 u cycle cycles hcycles broken hlt =>
    -- A round that breaks a circle drops an edge, so the test never ends the rounds early.
    have hlength := h.breaks_round.length_edges
    rw [Untangling.round, hcycles, List.length_cons] at hlength
    have : broken.edges.length < u.edges.length := by
      show (List.foldl Untangling.breakCycle u (cycle :: cycles)).edges.length < _
      omega
    exact absurd this hlt

/-- What rounds come to if they go on for as long as circles are found, with nothing else that ends
them. The circles of a round are not empty and consist of edges that are there when it is their
turn. -/
inductive LoopsTo : Untangling → Untangling → Prop where
  | finish {u : Untangling} (hnone : u.graph.cycles = []) : LoopsTo u u
  | round {u last : Untangling} (hsome : u.graph.cycles ≠ [])
    (hbreaks : u.Breaks u.graph.cycles u.round) (hrest : LoopsTo u.round last) : LoopsTo u last

theorem Sound.loopsTo (h : u.Sound) : u.LoopsTo u.breakCycles := by
  induction hn : u.edges.length using Nat.strongRecOn generalizing u with
  | ind n ih =>
    subst hn
    have hbreaks := h.breaks_round
    have hlength := hbreaks.length_edges
    rw [Untangling.breakCycles]
    split
    next hnil => exact .finish hnil
    next cycle cycles hcycles =>
      have hround : (cycle :: cycles).foldl Untangling.breakCycle u = u.round := by
        rw [Untangling.round, hcycles]
      have hsome : u.graph.cycles ≠ [] := by simp [hcycles]
      have hlt : u.round.edges.length < u.edges.length := by
        have hpos := List.length_pos_iff.mpr hsome
        omega
      simp only [hround, if_pos hlt]
      exact .round hsome hbreaks (ih _ hlt h.round rfl)

end Untangling

end Mixin
