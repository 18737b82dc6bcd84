import Mathlib.Data.List.Nodup
import Mixin.Proofs.Graph.Traversal

/-!
# The order of a traversal

A traversal of some nodes and then of others is a traversal of the first ones, followed by one of
the others among the nodes that are left (`explore_append`). So `explore`, which keeps a list of
pending nodes, comes to the same as recursion that hands on the list of the nodes found so far
(`Visits`).

If no node leads back to itself, every node can be unfolded into itself and the unfoldings of its
successors. A traversal then lists the nodes of the unfolding, each at its first place
(`explore_eq_eraseDups`).
-/

namespace Mixin

open Relation

section Order

variable {α : Type} {successors : α → List α}

theorem not_transGen_self_of_rank {r : α → α → Prop} (rank : α → Nat)
    (h : ∀ a b, r a b → rank b < rank a) (a : α) : ¬ TransGen r a a := by
  intro hcircle
  have hlower : TransGen (fun m n => n < m) (rank a) (rank a) := hcircle.lift rank h
  rw [transGen_eq_self] at hlower
  exact Nat.lt_irrefl _ hlower

/-! ### Recursion and unfoldings -/

/-- Visiting the `pending` nodes one after another by recursion takes the list of the nodes `found`
before to the list `last`. A node is skipped if it is none of the `nodes` or was found before; else
it is put at the end of the list, and its successors are visited before the next pending node. -/
inductive Visits (successors : α → List α) (nodes : List α) :
    (pending found last : List α) → Prop where
  | nil (found : List α) : Visits successors nodes [] found found
  | skip {a : α} {rest found last : List α} (hskip : a ∉ nodes ∨ a ∈ found)
    (hrest : Visits successors nodes rest found last) :
    Visits successors nodes (a :: rest) found last
  | enter {a : α} {rest found inner last : List α} (ha : a ∈ nodes) (hnew : a ∉ found)
    (hinner : Visits successors nodes (successors a) (found ++ [a]) inner)
    (hrest : Visits successors nodes rest inner last) :
    Visits successors nodes (a :: rest) found last

theorem Visits.unique {nodes pending found last other : List α}
    (h : Visits successors nodes pending found last)
    (h' : Visits successors nodes pending found other) : last = other := by
  induction h generalizing other with
  | nil found =>
    cases h'
    rfl
  | skip hskip _ ih =>
    cases h' with
    | skip _ hrest => exact ih hrest
    | enter ha hnew => exact absurd hskip (not_or.mpr ⟨not_not.mpr ha, hnew⟩)
  | enter ha hnew _ _ ihinner ihrest =>
    cases h' with
    | skip hskip => exact absurd hskip (not_or.mpr ⟨not_not.mpr ha, hnew⟩)
    | enter _ _ hinner hrest =>
      obtain rfl := ihinner hinner
      exact ihrest hrest

/-- The nodes `pending` are unfolded: for each of them the list has the node itself and then the
unfolding of its successors. -/
inductive Unfolds (successors : α → List α) : (pending list : List α) → Prop where
  | nil : Unfolds successors [] []
  | cons {a : α} {rest list more : List α} (hsuccessors : Unfolds successors (successors a) list)
    (hrest : Unfolds successors rest more) : Unfolds successors (a :: rest) (a :: (list ++ more))

namespace Unfolds

variable {pending list : List α}

theorem unique (h : Unfolds successors pending list) {other : List α}
    (h' : Unfolds successors pending other) : list = other := by
  induction h generalizing other with
  | nil =>
    cases h'
    rfl
  | cons _ _ ihsuccessors ihrest =>
    cases h' with
    | cons hsuccessors hrest => rw [ihsuccessors hsuccessors, ihrest hrest]

theorem mem_iff (h : Unfolds successors pending list) {x : α} :
    x ∈ list ↔ ∃ p ∈ pending, ReflTransGen (fun a b => b ∈ successors a) p x := by
  induction h with
  | nil => simp
  | @cons a rest list more _ _ ihsuccessors ihrest =>
    rw [List.mem_cons, List.mem_append, ihsuccessors, ihrest, List.exists_mem_cons_iff, ← or_assoc]
    refine or_congr_left ⟨?_, fun hpath => ?_⟩
    · rintro (rfl | ⟨b, hb, hpath⟩)
      · exact .refl
      · exact .head hb hpath
    · rcases hpath.cases_head with rfl | ⟨b, hb, hpath⟩
      · exact Or.inl rfl
      · exact Or.inr ⟨b, hb, hpath⟩

end Unfolds

variable [DecidableEq α]

/-! ### Parts of a traversal -/

theorem mem_unvisited_of_mem_explore {unvisited pending : List α} {x : α}
    (hx : x ∈ explore successors unvisited pending) : x ∈ unvisited := by
  obtain ⟨p, -, hp, hpath⟩ := exists_path_of_mem_explore successors hx
  induction hpath with
  | refl => exact hp
  | tail _ hstep _ => exact hstep.2

theorem nodup_explore {unvisited : List α} (hnodup : unvisited.Nodup) (pending : List α) :
    (explore successors unvisited pending).Nodup := by
  induction unvisited, pending using explore.induct successors with
  | case1 => simp [explore_nil]
  | case2 unvisited a rest ha ih =>
    rw [explore_of_mem successors ha, List.nodup_cons]
    refine ⟨fun hmem => ?_, ih (hnodup.erase a)⟩
    exact hnodup.not_mem_erase (mem_unvisited_of_mem_explore hmem)
  | case3 unvisited a rest ha ih =>
    rw [explore_of_not_mem successors ha]
    exact ih hnodup

theorem explore_append (unvisited xs ys : List α) :
    explore successors unvisited (xs ++ ys) =
      explore successors unvisited xs ++
        explore successors (unvisited.diff (explore successors unvisited xs)) ys := by
  induction unvisited, xs using explore.induct successors with
  | case1 => simp [explore_nil]
  | case2 unvisited a rest ha ih =>
    rw [List.append_assoc] at ih
    rw [List.cons_append, explore_of_mem successors ha, explore_of_mem successors ha, ih,
      List.diff_cons, List.cons_append]
  | case3 unvisited a rest ha ih =>
    rw [List.cons_append, explore_of_not_mem successors ha, explore_of_not_mem successors ha, ih]

theorem explore_congr {others : α → List α} {unvisited : List α}
    (h : ∀ a ∈ unvisited, others a = successors a) (pending : List α) :
    explore others unvisited pending = explore successors unvisited pending := by
  induction unvisited, pending using explore.induct successors with
  | case1 => rw [explore_nil, explore_nil]
  | case2 unvisited a rest ha ih =>
    rw [explore_of_mem _ ha, explore_of_mem _ ha, h a ha,
      ih fun b hb => h b (List.mem_of_mem_erase hb)]
  | case3 unvisited a rest ha ih =>
    rw [explore_of_not_mem _ ha, explore_of_not_mem _ ha, ih h]

theorem explore_filter (p : α → Bool) (unvisited pending : List α) :
    explore (fun a => (successors a).filter p) unvisited (pending.filter p) =
      explore successors (unvisited.filter p) pending := by
  generalize hu : unvisited.filter p = allowed
  induction allowed, pending using explore.induct successors generalizing unvisited with
  | case1 => rw [List.filter_nil, explore_nil, explore_nil]
  | case2 allowed a rest ha ih =>
    rw [← hu, List.mem_filter] at ha
    have herase : (unvisited.erase a).filter p = allowed.erase a := by
      rw [← hu, List.erase_filter]
    rw [List.filter_cons_of_pos ha.2, explore_of_mem _ ha.1, ← List.filter_append,
      ih _ herase, explore_of_mem successors (hu ▸ List.mem_filter.mpr ha)]
  | case3 allowed a rest ha ih =>
    rw [explore_of_not_mem successors ha, ← ih unvisited hu]
    rw [← hu, List.mem_filter, not_and] at ha
    by_cases hp : p a = true
    · have hunvisited : a ∉ unvisited := fun hmem => ha hmem hp
      rw [List.filter_cons_of_pos hp, explore_of_not_mem _ hunvisited]
    · rw [List.filter_cons_of_neg hp]

theorem explore_perm {unvisited unvisited' : List α} (h : unvisited.Perm unvisited')
    (pending : List α) :
    explore successors unvisited pending = explore successors unvisited' pending := by
  induction unvisited, pending using explore.induct successors generalizing unvisited' with
  | case1 => rw [explore_nil, explore_nil]
  | case2 unvisited a rest ha ih =>
    rw [explore_of_mem _ ha, explore_of_mem _ (h.mem_iff.mp ha), ih (h.erase a)]
  | case3 unvisited a rest ha ih =>
    rw [explore_of_not_mem _ ha, explore_of_not_mem _ (mt h.mem_iff.mpr ha), ih h]

theorem explore_map {β : Type} [DecidableEq β] {f : α → β} (hf : Function.Injective f)
    {successors' : β → List β} (h : ∀ a, successors' (f a) = (successors a).map f)
    (unvisited pending : List α) :
    explore successors' (unvisited.map f) (pending.map f) =
      (explore successors unvisited pending).map f := by
  induction unvisited, pending using explore.induct successors with
  | case1 => rw [List.map_nil, explore_nil, explore_nil, List.map_nil]
  | case2 unvisited a rest ha ih =>
    rw [List.map_cons, explore_of_mem _ (List.mem_map_of_mem ha), explore_of_mem _ ha, h,
      ← List.map_append, ← List.map_erase hf, ih, List.map_cons]
  | case3 unvisited a rest ha ih =>
    have hnot : f a ∉ unvisited.map f := fun hmem => ha ((List.mem_map_of_injective hf).mp hmem)
    rw [List.map_cons, explore_of_not_mem _ hnot, explore_of_not_mem _ ha, ih]

/-! ### Traversals by recursion -/

/-- Recursion comes to an end, whatever circles there are, and adds what a traversal lists. -/
theorem visits_explore {nodes : List α} (hnodup : nodes.Nodup) (pending found : List α) :
    Visits successors nodes pending found
      (found ++ explore successors (nodes.diff found) pending) := by
  -- The nodes not found yet get fewer with each call for successors.
  induction hn : (nodes.diff found).length using Nat.strongRecOn generalizing pending found with
  | ind n ih =>
    subst hn
    induction pending with
    | nil =>
      rw [explore_nil, List.append_nil]
      exact .nil found
    | cons a rest ihrest =>
      by_cases ha : a ∈ nodes.diff found
      · have hmem := hnodup.mem_sdiff_iff.mp ha
        have hadd (more : List α) : nodes.diff (found ++ [a] ++ more) =
            ((nodes.diff found).erase a).diff more := by
          rw [List.diff_append, List.diff_append, List.diff_cons, List.diff_nil]
        have hfewer := length_erase_lt ha
        let inner := found ++ [a] ++ explore successors ((nodes.diff found).erase a) (successors a)
        have hinner : Visits successors nodes (successors a) (found ++ [a]) inner := by
          have hcall := ih _ (by rw [← List.append_nil (found ++ [a]), hadd]; exact hfewer)
            (successors a) (found ++ [a]) rfl
          rwa [← List.append_nil (found ++ [a]), hadd, List.append_nil] at hcall
        have hless : (nodes.diff inner).length < (nodes.diff found).length := by
          rw [hadd]
          exact Nat.lt_of_le_of_lt (List.diff_sublist _ _).length_le hfewer
        have hlast := ih _ hless rest inner rfl
        rw [explore_of_mem successors ha, explore_append]
        refine .enter hmem.1 hmem.2 hinner ?_
        rw [hadd] at hlast
        simpa [inner] using hlast
      · rw [explore_of_not_mem successors ha]
        refine .skip ?_ ihrest
        rw [hnodup.mem_sdiff_iff, not_and_or, not_not] at ha
        exact ha

/-! ### Traversals of what can be unfolded -/

/-- If no node leads back to itself, nodes that lead to finitely many others can be unfolded. -/
theorem exists_unfolds (hacyclic : ∀ a, ¬ TransGen (fun a b => b ∈ successors a) a a)
    (nodes : List α) {pending : List α}
    (hclosed : ∀ p ∈ pending, ∀ x, ReflTransGen (fun a b => b ∈ successors a) p x → x ∈ nodes) :
    ∃ list, Unfolds successors pending list := by
  induction hn : nodes.length using Nat.strongRecOn generalizing nodes pending with
  | ind n ih =>
    subst hn
    induction pending with
    | nil => exact ⟨[], .nil⟩
    | cons a rest ihrest =>
      rw [List.forall_mem_cons] at hclosed
      have ha : a ∈ nodes := hclosed.1 a .refl
      -- What follows a successor of `a` does not come back to `a`.
      have hbehind : ∀ b ∈ successors a, ∀ x,
          ReflTransGen (fun a b => b ∈ successors a) b x → x ∈ nodes.erase a := by
        intro b hb x hpath
        refine (List.mem_erase_of_ne ?_).mpr (hclosed.1 x (.head hb hpath))
        rintro rfl
        exact hacyclic x (.head' hb hpath)
      obtain ⟨list, hlist⟩ := ih _ (length_erase_lt ha) (nodes.erase a) hbehind rfl
      obtain ⟨more, hmore⟩ := ihrest hclosed.2
      exact ⟨a :: (list ++ more), .cons hlist hmore⟩

theorem eraseDups_filter_cons_append {nodes left list : List α} {a : α} (ha : a ∈ nodes)
    (hlist : a ∉ list) (hleft : ∀ x, x ∈ left ↔ x ∈ nodes ∧ x ≠ a ∧ x ∉ list) (more : List α) :
    ((a :: (list ++ more)).filter fun x => x ∈ nodes).eraseDups =
      a :: ((list.filter fun x => x ∈ nodes).eraseDups ++
        (more.filter fun x => x ∈ left).eraseDups) := by
  rw [List.filter_cons_of_pos (by simpa using ha), List.eraseDups_cons, List.filter_append,
    List.filter_append, List.eraseDups_append, List.filter_filter, List.filter_filter,
    List.removeAll, List.filter_filter]
  refine congrArg₂ (fun xs ys => a :: (xs ++ ys)) ?_ ?_
  · refine congrArg List.eraseDups (List.filter_congr fun x hx => ?_)
    have hxa : x ≠ a := fun heq => hlist (heq ▸ hx)
    simp [hxa]
  · refine congrArg List.eraseDups (List.filter_congr fun x _ => ?_)
    simp only [hleft, List.elem_eq_mem, List.mem_filter]
    by_cases hxa : x = a
    · simp [hxa]
    · by_cases hxnodes : x ∈ nodes <;> simp [hxa, hxnodes]

/-- A traversal lists the nodes of the unfolding that may be visited, each at its first place, if
nothing that may be visited lies behind a node of the unfolding that may not. -/
theorem explore_eq_eraseDups (hacyclic : ∀ a, ¬ TransGen (fun a b => b ∈ successors a) a a)
    {nodes pending list : List α} (hnodup : nodes.Nodup) (h : Unfolds successors pending list)
    (hclosed : ∀ x ∈ list, x ∉ nodes → ∀ y, ReflTransGen (fun a b => b ∈ successors a) x y →
      y ∉ nodes) :
    explore successors nodes pending = (list.filter fun x => x ∈ nodes).eraseDups := by
  induction h generalizing nodes with
  | nil => rw [explore_nil, List.filter_nil, List.eraseDups_nil]
  | @cons a rest list more hlist hmore ihlist ihmore =>
    rw [List.forall_mem_cons, List.forall_mem_append] at hclosed
    obtain ⟨hcloseda, hclosedlist, hclosedmore⟩ := hclosed
    have hbehind : ∀ x ∈ list, TransGen (fun a b => b ∈ successors a) a x := by
      intro x hx
      obtain ⟨b, hb, hpath⟩ := hlist.mem_iff.mp hx
      exact .head' hb hpath
    by_cases ha : a ∈ nodes
    · -- The unfolding of the successors does not contain `a`, so it may as well be forbidden there.
      have hne : ∀ x ∈ list, x ≠ a := by
        rintro x hx rfl
        exact hacyclic x (hbehind x hx)
      have hinner : explore successors (nodes.erase a) (successors a) =
          (list.filter fun x => x ∈ nodes).eraseDups := by
        rw [ihlist (hnodup.erase a)]
        · refine congrArg List.eraseDups (List.filter_congr fun x hx => ?_)
          simp [hnodup.mem_erase_iff, hne x hx]
        · intro x hx hnot y hpath hy
          refine hclosedlist x hx (fun hmem => hnot ?_) y hpath (List.mem_of_mem_erase hy)
          exact (List.mem_erase_of_ne (hne x hx)).mpr hmem
      let left := (nodes.erase a).diff (explore successors (nodes.erase a) (successors a))
      have hleft : ∀ x, x ∈ left ↔ x ∈ nodes ∧ x ≠ a ∧ x ∉ list := by
        intro x
        simp only [left, (hnodup.erase a).mem_sdiff_iff, hinner, List.mem_eraseDups,
          List.mem_filter, hnodup.mem_erase_iff, decide_eq_true_eq]
        tauto
      have houter : explore successors left rest = (more.filter fun x => x ∈ left).eraseDups := by
        refine ihmore (hnodup.erase a).diff fun x hx hnot y hpath hy => ?_
        obtain ⟨hynodes, hya, hylist⟩ := (hleft y).mp hy
        rw [hleft] at hnot
        -- Behind `a`, and behind what lies behind `a`, everything is in the list already.
        by_cases hxnodes : x ∈ nodes
        · have hax : ReflTransGen (fun a b => b ∈ successors a) a x := by
            by_cases hxa : x = a
            · exact hxa ▸ .refl
            · exact (hbehind x (by tauto)).to_reflTransGen
          rcases (hax.trans hpath).cases_head with heq | ⟨b, hb, hpath⟩
          · exact hya heq.symm
          · exact hylist (hlist.mem_iff.mpr ⟨b, hb, hpath⟩)
        · exact hclosedmore x hx hxnodes y hpath hynodes
      rw [eraseDups_filter_cons_append ha (fun hmem => hne a hmem rfl) hleft, ← hinner, ← houter,
        explore_of_mem successors ha, explore_append]
    · have hempty : (list.filter fun x => x ∈ nodes) = [] := by
        refine List.filter_eq_nil_iff.mpr fun x hx => ?_
        simpa using hcloseda ha x (hbehind x hx).to_reflTransGen
      rw [explore_of_not_mem successors ha, List.filter_cons_of_neg (by simpa using ha),
        List.filter_append, hempty, List.nil_append]
      exact ihmore hnodup hclosedmore

end Order

end Mixin
