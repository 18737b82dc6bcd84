import Mathlib.Data.Prod.Lex
import Mixin.Proofs.Symbol.Hierarchy

/-!
# What is left to implement, and what implements

The methods that a type still has to implement and the method that implements a signature are sought
by two functions. Both go through the methods of the chain by place (`StandsAt`). A signature is
left to implement exactly if the chain has it without a body and no method with a body is found;
what either of the two yields is the first method of its sort
(`abstractMembers_complement_implementation`).
-/

namespace Mixin

theorem find?_eq_some_iff_least {π α : Type} [LinearOrder π] {l : List (π × α)}
    (hl : l.Pairwise fun e f => e.1 < f.1) {p : π × α → Bool} {e : π × α} :
    l.find? p = some e ↔ e ∈ l ∧ p e = true ∧ ∀ f ∈ l, p f = true → e.1 ≤ f.1 := by
  induction l with
  | nil => simp
  | cons a rest ih =>
    obtain ⟨ha, hrest⟩ := List.pairwise_cons.mp hl
    by_cases hp : p a = true
    · rw [List.find?_cons_of_pos hp, Option.some_inj]
      constructor
      · rintro rfl
        refine ⟨List.mem_cons_self .., hp, fun f hf _ => ?_⟩
        rcases List.mem_cons.mp hf with rfl | hf
        · exact le_rfl
        · exact (ha f hf).le
      · rintro ⟨hmem, -, hleast⟩
        rcases List.mem_cons.mp hmem with rfl | hmem
        · rfl
        · exact absurd (hleast a (List.mem_cons_self ..) hp) (ha e hmem).not_ge
    · rw [List.find?_cons_of_neg hp, ih hrest]
      constructor
      · rintro ⟨hmem, hpe, hleast⟩
        refine ⟨List.mem_cons_of_mem _ hmem, hpe, fun f hf hpf => ?_⟩
        rcases List.mem_cons.mp hf with rfl | hf
        · exact absurd hpf hp
        · exact hleast f hf hpf
      · rintro ⟨hmem, hpe, hleast⟩
        rcases List.mem_cons.mp hmem with rfl | hmem
        · exact absurd hpe hp
        · exact ⟨hmem, hpe, fun f hf => hleast f (List.mem_cons_of_mem _ hf)⟩

theorem exists_mem_distinctBy {α β : Type} [DecidableEq β] {key : α → β} {l : List α} {k : β} :
    (∃ a ∈ distinctBy key [] l, key a = k) ↔ ∃ a ∈ l, key a = k := by
  constructor
  · rintro ⟨a, ha, hk⟩
    exact ⟨a, (distinctBy_sublist ..).subset ha, hk⟩
  · rintro ⟨a, ha, hk⟩
    obtain ⟨b, hb⟩ : ∃ b, l.find? (fun c => key c == k) = some b := by
      rw [← Option.isSome_iff_exists, List.find?_isSome]
      exact ⟨a, ha, beq_iff_eq.mpr hk⟩
    have hkey : key b = k := by simpa using List.find?_some hb
    refine ⟨b, mem_distinctBy.mpr ⟨List.not_mem_nil, ?_⟩, hkey⟩
    rw [hkey]
    exact hb

theorem nodup_map_distinctBy {α β : Type} [DecidableEq β] (key : α → β) (seen : List β)
    (l : List α) : ((distinctBy key seen l).map key).Nodup := by
  induction l generalizing seen with
  | nil => exact List.nodup_nil
  | cons a rest ih =>
    rw [distinctBy]
    split
    · exact ih seen
    · refine List.nodup_cons.mpr ⟨fun hmem => ?_, ih _⟩
      obtain ⟨b, hb, hkey⟩ := List.mem_map.mp hmem
      exact (mem_distinctBy.mp hb).1 (hkey ▸ List.mem_cons_self ..)

def MethodInfo.Implements (m : MethodInfo) (s : Signature) : Prop :=
  m.isAbstract = false ∧ m.signature = s

/-- The method has no body, and needs one for this signature. -/
def MethodInfo.Requires (m : MethodInfo) (s : Signature) : Prop :=
  m.isAbstract = true ∧ m.signature = s

namespace SymbolTable

/-! ### Places in a chain -/

/-- A method is a member of a type in the chain of `id`. Its place tells the number of the type in
the chain, and then the number of the method among those of the type. -/
def StandsAt (t : SymbolTable) (id : ClassId) (place : ℕ ×ₗ ℕ) (m : MethodId) : Prop :=
  ∃ c, (t.chain id)[(ofLex place).1]? = some c ∧
    (t.classInfo c).methods[(ofLex place).2]? = some m

/-- At this place stands the first method in the chain of `id` that has a property. -/
structure IsFirst (t : SymbolTable) (id : ClassId) (P : MethodInfo → Prop) (place : ℕ ×ₗ ℕ)
    (m : MethodId) : Prop where
  stands : t.StandsAt id place m
  holds : P (t.methodInfo m)
  least : ∀ other m', t.StandsAt id other m' → P (t.methodInfo m') → place ≤ other

def placedMethods (t : SymbolTable) (id : ClassId) : List ((ℕ ×ₗ ℕ) × MethodId) :=
  (t.chain id).zipIdx.flatMap fun c =>
    (t.classInfo c.1).methods.zipIdx.map fun m => (toLex (c.2, m.2), m.1)

variable {t : SymbolTable} {id : ClassId} {m : MethodId} {s : Signature}

theorem mem_placedMethods {e : (ℕ ×ₗ ℕ) × MethodId} :
    e ∈ t.placedMethods id ↔ t.StandsAt id e.1 e.2 := by
  simp only [placedMethods, List.mem_flatMap, List.mem_map, List.mem_zipIdx_iff_getElem?, StandsAt]
  constructor
  · rintro ⟨c, hc, m, hm, rfl⟩
    exact ⟨c.1, hc, hm⟩
  · rintro ⟨c, hc, hm⟩
    exact ⟨(c, (ofLex e.1).1), hc, (e.2, (ofLex e.1).2), hm, rfl⟩

theorem map_placedMethods (t : SymbolTable) (id : ClassId) :
    (t.placedMethods id).map (·.2) = t.chainMethods id := by
  have hmethods : ∀ c : ClassId × ℕ,
      ((t.classInfo c.1).methods.zipIdx.map fun m => (toLex (c.2, m.2), m.1)).map (·.2) =
        (t.classInfo c.1).methods := by
    intro c
    rw [List.map_map]
    exact List.zipIdx_map_fst 0 _
  rw [placedMethods, List.map_flatMap, chainMethods]
  simp only [hmethods]
  rw [← List.flatMap_map (fun c : ClassId × ℕ => c.1) fun c => (t.classInfo c).methods,
    List.zipIdx_map_fst]

theorem pairwise_zipIdx {α : Type} (l : List α) : l.zipIdx.Pairwise fun a b => a.2 < b.2 := by
  rw [← List.pairwise_map (f := Prod.snd) (R := (· < ·)), List.zipIdx_map_snd]
  exact List.pairwise_lt_range'

theorem pairwise_placedMethods (t : SymbolTable) (id : ClassId) :
    (t.placedMethods id).Pairwise fun e f => e.1 < f.1 := by
  refine List.pairwise_flatMap.mpr ⟨fun c _ => ?_, (pairwise_zipIdx _).imp fun {c d} hcd => ?_⟩
  · refine List.pairwise_map.mpr ((pairwise_zipIdx _).imp fun {m n} hmn => ?_)
    exact Prod.Lex.toLex_lt_toLex.mpr (.inr ⟨rfl, hmn⟩)
  · intro e he f hf
    obtain ⟨m, -, rfl⟩ := List.mem_map.mp he
    obtain ⟨n, -, rfl⟩ := List.mem_map.mp hf
    exact Prod.Lex.toLex_lt_toLex.mpr (.inl hcd)

/-! ### Implementations -/

theorem implementation?_eq_find? (t : SymbolTable) (id : ClassId) (s : Signature) :
    t.implementation? id s =
      ((t.placedMethods id).find? fun e =>
        !(t.methodInfo e.2).isAbstract && (t.methodInfo e.2).signature == s).map (·.2) := by
  rw [implementation?, ← map_placedMethods, List.find?_map]
  rfl

theorem implementation?_eq_some_iff :
    t.implementation? id s = some m ↔ ∃ place, t.IsFirst id (·.Implements s) place m := by
  rw [implementation?_eq_find?, Option.map_eq_some_iff]
  simp only [find?_eq_some_iff_least (t.pairwise_placedMethods id), mem_placedMethods,
    Bool.and_eq_true, Bool.not_eq_true', beq_iff_eq]
  constructor
  · rintro ⟨e, ⟨hstands, himplements, hleast⟩, rfl⟩
    exact ⟨e.1, hstands, himplements, fun place m' => hleast (place, m')⟩
  · rintro ⟨place, hfirst⟩
    exact ⟨(place, m), ⟨hfirst.stands, hfirst.holds, fun f => hfirst.least f.1 f.2⟩, rfl⟩

theorem implementation?_eq_none_iff :
    t.implementation? id s = none ↔
      ∀ place m, t.StandsAt id place m → ¬ (t.methodInfo m).Implements s := by
  rw [implementation?_eq_find?, Option.map_eq_none_iff, List.find?_eq_none]
  simp only [mem_placedMethods, Bool.and_eq_true, Bool.not_eq_true', beq_iff_eq, Prod.forall,
    MethodInfo.Implements]

/-! ### Outstanding members -/

/-- Whether a method has no body and nothing in the chain of `id` implements it. -/
def isOutstanding (t : SymbolTable) (id : ClassId) (m : MethodId) : Bool :=
  (t.methodInfo m).isAbstract && (t.implementation? id (t.methodInfo m).signature).isNone

theorem isOutstanding_iff :
    t.isOutstanding id m = true ↔
      (t.methodInfo m).isAbstract = true ∧
        t.implementation? id (t.methodInfo m).signature = none := by
  rw [isOutstanding, Bool.and_eq_true, Option.isNone_iff_eq_none]

theorem notMem_implemented_iff :
    s ∉ ((t.chainMethods id).filter fun m => !(t.methodInfo m).isAbstract).map
        (fun m => (t.methodInfo m).signature) ↔
      t.implementation? id s = none := by
  rw [implementation?, List.find?_eq_none]
  simp only [List.mem_map, List.mem_filter, Bool.not_eq_true', not_exists, not_and, and_imp,
    Bool.and_eq_true, beq_iff_eq]

theorem abstractMembers_eq (t : SymbolTable) (id : ClassId) :
    t.abstractMembers id = distinctBy (fun m => (t.methodInfo m).signature) []
      ((t.chainMethods id).filter (t.isOutstanding id)) := by
  rw [abstractMembers]
  refine congrArg (distinctBy _ []) (List.filter_congr fun m _ => ?_)
  rw [Bool.eq_iff_iff, isOutstanding_iff, Bool.and_eq_true, decide_eq_true_eq,
    notMem_implemented_iff]

def outstandingPlaces (t : SymbolTable) (id : ClassId) : List ((ℕ ×ₗ ℕ) × MethodId) :=
  distinctBy (fun e => (t.methodInfo e.2).signature) []
    ((t.placedMethods id).filter fun e => t.isOutstanding id e.2)

theorem map_outstandingPlaces (t : SymbolTable) (id : ClassId) :
    (t.outstandingPlaces id).map (·.2) = t.abstractMembers id := by
  rw [outstandingPlaces, distinctBy_map (fun e : (ℕ ×ₗ ℕ) × MethodId => e.2)
    fun m => (t.methodInfo m).signature, abstractMembers_eq, ← map_placedMethods, List.filter_map]
  rfl

theorem isFirst_of_mem_outstandingPlaces {e : (ℕ ×ₗ ℕ) × MethodId}
    (he : e ∈ t.outstandingPlaces id) :
    t.IsFirst id (·.Requires (t.methodInfo e.2).signature) e.1 e.2 := by
  have hfound := (mem_distinctBy.mp he).2
  rw [find?_eq_some_iff_least ((t.pairwise_placedMethods id).filter _)] at hfound
  obtain ⟨hmem, -, hleast⟩ := hfound
  obtain ⟨hplaced, houtstanding⟩ := List.mem_filter.mp hmem
  obtain ⟨habstract, hnone⟩ := isOutstanding_iff.mp houtstanding
  refine ⟨mem_placedMethods.mp hplaced, ⟨habstract, rfl⟩, fun place m hstands hrequires => ?_⟩
  -- Whether something implements a method depends on its signature only.
  have hother : t.isOutstanding id m = true :=
    isOutstanding_iff.mpr ⟨hrequires.1, hrequires.2 ▸ hnone⟩
  exact hleast (place, m) (List.mem_filter.mpr ⟨mem_placedMethods.mpr hstands, hother⟩)
    (beq_iff_eq.mpr hrequires.2)

theorem exists_mem_abstractMembers_iff :
    (∃ m ∈ t.abstractMembers id, (t.methodInfo m).signature = s) ↔
      (∃ place m, t.StandsAt id place m ∧ (t.methodInfo m).Requires s) ∧
        t.implementation? id s = none := by
  rw [abstractMembers_eq, exists_mem_distinctBy, ← map_placedMethods]
  simp only [List.mem_filter, List.mem_map, isOutstanding_iff]
  constructor
  · rintro ⟨_, ⟨⟨e, he, rfl⟩, habstract, hnone⟩, rfl⟩
    exact ⟨⟨e.1, e.2, mem_placedMethods.mp he, habstract, rfl⟩, hnone⟩
  · rintro ⟨⟨place, m, hstands, habstract, rfl⟩, hnone⟩
    exact ⟨m, ⟨⟨(place, m), mem_placedMethods.mpr hstands, rfl⟩, habstract, hnone⟩, rfl⟩

/-- The two questions complement each other, in any table. A signature is left to implement exactly
if the chain has a method without a body for it and the search for an implementation fails. What is
left to implement are the first such methods, one for each signature, in the order of their places.
The implementation of a signature is found whenever there is one, and is the first. -/
theorem abstractMembers_complement_implementation (t : SymbolTable) (id : ClassId) :
    (∀ s, (∃ m ∈ t.abstractMembers id, (t.methodInfo m).signature = s) ↔
      (∃ place m, t.StandsAt id place m ∧ (t.methodInfo m).Requires s) ∧
        t.implementation? id s = none) ∧
    ((t.abstractMembers id).map fun m => (t.methodInfo m).signature).Nodup ∧
    (∃ places : List (ℕ ×ₗ ℕ), places.Pairwise (· < ·) ∧
      List.Forall₂ (fun place m => t.IsFirst id (·.Requires (t.methodInfo m).signature) place m)
        places (t.abstractMembers id)) ∧
    ∀ s, ((∃ place m, t.StandsAt id place m ∧ (t.methodInfo m).Implements s) →
        ∃ m, t.implementation? id s = some m) ∧
      ∀ m, t.implementation? id s = some m ↔ ∃ place, t.IsFirst id (·.Implements s) place m := by
  refine ⟨fun s => exists_mem_abstractMembers_iff, ?_, ?_, fun s => ⟨?_, fun m => ?_⟩⟩
  · rw [abstractMembers_eq]
    exact nodup_map_distinctBy _ _ _
  · refine ⟨(t.outstandingPlaces id).map (·.1), ?_, ?_⟩
    · have hsub : (t.outstandingPlaces id).Sublist (t.placedMethods id) :=
        (distinctBy_sublist ..).trans List.filter_sublist
      exact List.pairwise_map.mpr ((t.pairwise_placedMethods id).sublist hsub)
    · rw [← map_outstandingPlaces, List.forall₂_map_left_iff, List.forall₂_map_right_iff,
        List.forall₂_same]
      exact fun e he => isFirst_of_mem_outstandingPlaces he
  · rintro ⟨place, m, hstands, himplements⟩
    rw [← Option.ne_none_iff_exists']
    intro hnone
    exact implementation?_eq_none_iff.mp hnone place m hstands himplements
  · exact implementation?_eq_some_iff

end SymbolTable

end Mixin
