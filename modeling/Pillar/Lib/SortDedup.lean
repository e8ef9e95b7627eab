import Mathlib

/-!
# Sorting and removing repeats

`sort` followed by `dedup`, the way a program turns a bag of names into a listing.

* `sortDedup_congr` — **the listing depends on the set of members alone.**
-/

namespace Lib.SortDedup

variable {α : Type*} [LinearOrder α]

def sortDedup (l : List α) : List α := (l.insertionSort (· ≤ ·)).destutter (· ≠ ·)

theorem mem_destutter'_ne {a x : α} {l : List α} (h : x ∈ a :: l) :
    x ∈ l.destutter' (· ≠ ·) a := by
  induction l generalizing a with
  | nil => simpa using h
  | cons b l ih =>
    by_cases hab : a = b
    · subst hab
      rw [List.destutter'_cons_neg _ (by simp)]
      exact ih (by simpa using h)
    · rw [List.destutter'_cons_pos _ hab]
      rcases List.mem_cons.1 h with rfl | h
      · exact List.mem_cons_self
      · exact List.mem_cons_of_mem _ (ih h)

theorem mem_destutter_ne {x : α} {l : List α} : x ∈ l.destutter (· ≠ ·) ↔ x ∈ l := by
  refine ⟨fun h => (List.destutter_sublist _ l).subset h, fun h => ?_⟩
  cases l with
  | nil => exact h
  | cons a l => exact mem_destutter'_ne h

@[simp] theorem mem_sortDedup {x : α} {l : List α} : x ∈ sortDedup l ↔ x ∈ l := by
  rw [sortDedup, mem_destutter_ne, List.mem_insertionSort]

theorem sortDedup_sorted (l : List α) : (sortDedup l).Pairwise (· < ·) := by
  have hle : (sortDedup l).Pairwise (· ≤ ·) :=
    (List.pairwise_insertionSort (· ≤ ·) l).sublist (List.destutter_sublist _ _)
  have hne : (sortDedup l).IsChain (· ≠ ·) := List.isChain_destutter _ _
  -- neighbours are in order and different, and `<` carries that to any two
  rw [← List.isChain_iff_pairwise]
  refine List.isChain_iff_forall_rel_of_append_cons_cons.2 fun a b l₁ l₂ h => ?_
  exact lt_of_le_of_ne (List.isChain_iff_forall_rel_of_append_cons_cons.1 hle.isChain h)
    (List.isChain_iff_forall_rel_of_append_cons_cons.1 hne h)

/-- **The listing depends on the set of members alone.** -/
theorem sortDedup_congr {l₁ l₂ : List α} (h : ∀ x, x ∈ l₁ ↔ x ∈ l₂) :
    sortDedup l₁ = sortDedup l₂ := by
  refine (sortDedup_sorted l₁).eq_of_mem_iff (sortDedup_sorted l₂) fun x => ?_
  rw [mem_sortDedup, mem_sortDedup, h]

theorem pair_sublist_iff_of_sorted {β : Type*} {key : β → α} {l : List β} {a b : β}
    (hl : l.Pairwise fun x y => key x < key y) :
    [a, b].Sublist l ↔ a ∈ l ∧ b ∈ l ∧ key a < key b := by
  constructor
  · intro h
    refine ⟨h.subset (by simp), h.subset (by simp), ?_⟩
    simpa using hl.sublist h
  · rintro ⟨ha, hb, hlt⟩
    induction l with
    | nil => cases ha
    | cons x l ih =>
      obtain ⟨hx, hl⟩ := List.pairwise_cons.1 hl
      rcases List.mem_cons.1 ha with rfl | ha
      · have hne : b ≠ a := fun heq => lt_irrefl _ (heq ▸ hlt)
        exact (List.singleton_sublist.2 ((List.mem_cons.1 hb).resolve_left hne)).cons_cons a
      · have hne : b ≠ x := fun heq => lt_asymm hlt (heq ▸ hx a ha)
        exact (ih hl ha ((List.mem_cons.1 hb).resolve_left hne)).cons x

end Lib.SortDedup
