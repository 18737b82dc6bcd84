import Mathlib.Data.List.Forall2
import Mathlib.Data.List.Nodup

/-!
# Entries and their keys

What is found in a list by a key. Where several entries have the same key, the last one counts
(`latest`), as in a record to which entries are added in front and in which the first one is found.
-/

namespace Mixin

theorem lookup_eq_some_of_mem {α β : Type} [DecidableEq α] {l : List (α × β)}
    (hnodup : (l.map (·.1)).Nodup) {a : α} {b : β} (h : (a, b) ∈ l) : l.lookup a = some b := by
  induction l with
  | nil => cases h
  | cons p l ih =>
    rw [List.map_cons, List.nodup_cons] at hnodup
    rcases List.mem_cons.mp h with rfl | h
    · exact List.lookup_cons_self
    · have hne : a ≠ p.1 := by
        rintro rfl
        exact hnodup.1 (List.mem_map.mpr ⟨_, h, rfl⟩)
      rw [List.lookup_cons, beq_false_of_ne hne]
      exact ih hnodup.2 h

theorem exists_lookup_of_mem {α β : Type} [DecidableEq α] {l : List (α × β)} {a : α}
    (h : a ∈ l.map (·.1)) : ∃ b, l.lookup a = some b := by
  cases hlookup : l.lookup a with
  | some b => exact ⟨b, rfl⟩
  | none =>
    obtain ⟨entry, hentry, rfl⟩ := List.mem_map.mp h
    have hne := List.lookup_eq_none_iff.mp hlookup entry hentry
    simp at hne

theorem exists_mem_of_forall₂ {α β : Type} {r : α → β → Prop} {as : List α} {bs : List β}
    (h : List.Forall₂ r as bs) {b : β} (hb : b ∈ bs) : ∃ a ∈ as, r a b := by
  induction h with
  | nil => cases hb
  | cons hr _ ih =>
    rcases List.mem_cons.mp hb with rfl | hb
    · exact ⟨_, List.mem_cons_self .., hr⟩
    · obtain ⟨a, ha, hr⟩ := ih hb
      exact ⟨a, List.mem_cons_of_mem _ ha, hr⟩

/-! ### The last entry of a key -/

/-- The last entry with the key of `a`. -/
def latest {α κ : Type} [DecidableEq κ] (k : α → κ) (as : List α) (a : α) : α :=
  (as.reverse.find? fun b => k b = k a).getD a

section Latest

variable {α κ : Type} [DecidableEq κ] {k : α → κ} {as : List α} {a b : α}

theorem find?_reverse_eq_latest (ha : a ∈ as) :
    (as.reverse.find? fun b => k b = k a) = some (latest k as a) := by
  cases hfound : as.reverse.find? fun b => k b = k a with
  | some b => rw [latest, hfound, Option.getD_some]
  | none =>
    have hne := List.find?_eq_none.mp hfound a (List.mem_reverse.mpr ha)
    simp at hne

theorem latest_mem (ha : a ∈ as) : latest k as a ∈ as :=
  List.mem_reverse.mp (List.mem_of_find?_eq_some (find?_reverse_eq_latest (k := k) ha))

theorem key_latest (ha : a ∈ as) : k (latest k as a) = k a := by
  simpa using List.find?_some (find?_reverse_eq_latest (k := k) ha)

theorem latest_congr (ha : a ∈ as) (hb : b ∈ as) (h : k a = k b) :
    latest k as a = latest k as b := by
  have hfound := find?_reverse_eq_latest (k := k) ha
  rw [h, find?_reverse_eq_latest hb] at hfound
  exact (Option.some.inj hfound).symm

theorem latest_latest (ha : a ∈ as) : latest k as (latest k as a) = latest k as a :=
  latest_congr (latest_mem ha) ha (key_latest ha)

theorem latest_concat : latest k (as ++ [b]) a = if k b = k a then b else latest k as a := by
  by_cases h : k b = k a
  · simp [latest, h]
  · simp [latest, h]

theorem latest_eq_self (h : (as.map k).Nodup) (ha : a ∈ as) : latest k as a = a :=
  List.inj_on_of_nodup_map h (latest_mem ha) ha (key_latest ha)

/-- Only which entries have the same key matters. -/
theorem latest_map {β κ' : Type} [DecidableEq κ'] {l : β → κ'} (f : α → β) (ha : a ∈ as)
    (h : ∀ b ∈ as, l (f b) = l (f a) ↔ k b = k a) :
    latest l (as.map f) (f a) = f (latest k as a) := by
  have hfound : ((as.map f).reverse.find? fun b => l b = l (f a)) =
      (as.reverse.find? fun b => k b = k a).map f := by
    rw [← List.map_reverse, List.find?_map]
    replace h : ∀ b ∈ as.reverse, l (f b) = l (f a) ↔ k b = k a :=
      fun b hb => h b (List.mem_reverse.mp hb)
    generalize as.reverse = bs at h
    induction bs with
    | nil => rfl
    | cons b bs ih =>
      obtain ⟨hb, hbs⟩ := List.forall_mem_cons.mp h
      simp only [List.find?_cons, Function.comp_apply, hb]
      split
      · rfl
      · exact ih hbs
  rw [latest, hfound, find?_reverse_eq_latest ha, Option.map_some, Option.getD_some]

/-- Of entries that are put in front, the last one of a key is found. -/
theorem lookup_reverse_map {β : Type} (f : α → β) (ha : a ∈ as) :
    (as.map fun a => (k a, f a)).reverse.lookup (k a) = some (f (latest k as a)) := by
  rw [List.lookup_eq_findSome?, ← List.map_reverse, List.findSome?_map, ← Option.map_some,
    ← find?_reverse_eq_latest ha]
  generalize as.reverse = bs
  induction bs with
  | nil => rfl
  | cons b bs ih =>
    by_cases hb : k b = k a
    · simp [hb]
    · simpa [List.findSome?_cons, hb, Ne.symm hb] using ih

end Latest

end Mixin
