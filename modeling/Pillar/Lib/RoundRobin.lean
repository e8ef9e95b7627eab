import Mathlib

/-!
# Taking turns

Items `0, 1, …` are dealt to `k` hands in turn, beginning with hand `start`.

* `count_turn_bounds` — **fair shares**: among the first `n` items every hand gets `n / k`
  of them, or one more.
-/

namespace Lib.RoundRobin

variable {start k n : ℕ}

def turn (start k i : ℕ) : ℕ := (start + i) % k

theorem turn_lt (hk : 0 < k) (i : ℕ) : turn start k i < k := Nat.mod_lt _ hk

theorem turn_eq_iff {j : ℕ} (hj : j < k) (i : ℕ) :
    turn start k i = j ↔ i ≡ j + (k - start % k) [MOD k] := by
  have hmod := Nat.mod_lt start (Nat.lt_of_le_of_lt (Nat.zero_le j) hj)
  have hdiv := Nat.div_add_mod start k
  have hshift : start + (j + (k - start % k)) ≡ j [MOD k] := by
    have hsum : start + (j + (k - start % k)) = j + k * (start / k + 1) := by
      rw [Nat.mul_add, Nat.mul_one]
      omega
    rw [hsum, Nat.ModEq, Nat.add_mul_mod_self_left]
  have hturn : turn start k i = j ↔ start + i ≡ j [MOD k] := by
    rw [turn, Nat.ModEq, Nat.mod_eq_of_lt hj]
  rw [hturn]
  exact ⟨fun h => (h.trans hshift.symm).add_left_cancel' start,
    fun h => (h.add_left start).trans hshift⟩

theorem count_turn_bounds (start : ℕ) {j : ℕ} (hj : j < k) (n : ℕ) :
    n / k ≤ (List.range n).countP (turn start k · = j) ∧
      (List.range n).countP (turn start k · = j) ≤ n / k + 1 := by
  have hk : 0 < k := Nat.lt_of_le_of_lt (Nat.zero_le j) hj
  have hcount : (List.range n).countP (turn start k · = j) =
      n.count (· ≡ j + (k - start % k) [MOD k]) := by
    rw [Nat.count]
    exact List.countP_congr fun i _ => by simpa using turn_eq_iff hj i
  rw [hcount, Nat.count_modEq_card n hk]
  split_ifs <;> omega

theorem card_image_turn (hk : 0 < k) (n : ℕ) :
    ((Finset.range n).image (turn start k)).card = min n k := by
  have hinj : Set.InjOn (turn start k) (Finset.range (min n k)) := by
    intro a ha b hb hab
    simp only [Finset.coe_range, Set.mem_Iio, lt_min_iff] at ha hb
    have hmod : start + a ≡ start + b [MOD k] := hab
    exact Nat.ModEq.eq_of_lt_of_lt (Nat.ModEq.add_left_cancel' start hmod) ha.2 hb.2
  have himage : (Finset.range n).image (turn start k) =
      (Finset.range (min n k)).image (turn start k) := by
    refine subset_antisymm (fun j hj => ?_)
      (Finset.image_subset_image (Finset.range_subset_range.2 (min_le_left _ _)))
    obtain ⟨i, hi, rfl⟩ := Finset.mem_image.1 hj
    refine Finset.mem_image.2 ⟨i % k, ?_, ?_⟩
    · rw [Finset.mem_range] at hi ⊢
      exact lt_min ((Nat.mod_le _ _).trans_lt hi) (Nat.mod_lt _ hk)
    · rw [turn, turn, Nat.add_mod_mod]
  rw [himage, Finset.card_image_of_injOn hinj, Finset.card_range]

end Lib.RoundRobin
