import Mathlib

/-!
# Linear orders from comparators, and comparing encoded keys

`linearOrderOfOrd` turns a lawful `compare` into the linear order Mathlib speaks of, in which the
entries of a map are sorted.

* `compare_beBytes` — **big-endian bytes compare as the numbers they write**.
-/

namespace Lib.Compare

open Std

/-! ## The order of a comparator -/

section OfOrd

variable {α : Type} [Ord α] [TransOrd α]

theorem lt_iff_isLE_not_isLE (a b : α) :
    compare a b = .lt ↔ (compare a b).isLE = true ∧ ¬ (compare b a).isLE = true := by
  rw [OrientedOrd.eq_swap (a := b)]
  cases compare a b <;> simp

theorem isLE_total (a b : α) : (compare a b).isLE = true ∨ (compare b a).isLE = true := by
  rw [OrientedOrd.eq_swap (a := b)]
  cases compare a b <;> simp

/-- The linear order of a lawful comparator. -/
abbrev linearOrderOfOrd (α : Type) [Ord α] [TransOrd α] [LawfulEqOrd α] [DecidableEq α] :
    LinearOrder α where
  le a b := (compare a b).isLE
  lt a b := compare a b = .lt
  le_refl a := by simp
  le_trans a b c hab hbc := TransCmp.isLE_trans hab hbc
  le_antisymm a b hab hba := LawfulEqCmp.eq_of_compare (OrientedCmp.isLE_antisymm hab hba)
  lt_iff_le_not_ge a b := lt_iff_isLE_not_isLE a b
  le_total a b := isLE_total a b
  toDecidableLE := fun a b => inferInstanceAs (Decidable ((compare a b).isLE = true))
  toDecidableLT := inferInstanceAs (DecidableRel (@LT.lt α ltOfOrd))
  toDecidableEq := inferInstance
  compare := compare
  compare_eq_compareOfLessAndEq a b := by
    unfold compareOfLessAndEq
    split_ifs with hlt heq
    · exact hlt
    · subst heq
      exact ReflCmp.compare_self
    · have hne : compare a b ≠ .lt := hlt
      have hne' : compare a b ≠ .eq := fun h => heq (LawfulEqCmp.eq_of_compare h)
      cases h : compare a b with
      | lt => exact absurd h hne
      | eq => exact absurd h hne'
      | gt => rfl

end OfOrd

/-! ## Comparing concatenations -/

theorem compare_append_of_length_eq {α : Type} [Ord α] {a b : List α} (h : a.length = b.length)
    (x y : List α) : compare (a ++ x) (b ++ y) = (compare a b).then (compare x y) := by
  induction a generalizing b with
  | nil =>
    obtain rfl : b = [] := List.eq_nil_of_length_eq_zero h.symm
    simp [List.compare_nil_nil]
  | cons c a ih =>
    cases b with
    | nil => simp at h
    | cons d b =>
      rw [List.cons_append, List.cons_append, List.compare_cons_cons, List.compare_cons_cons,
        ih (by simpa using h), Ordering.then_assoc]

/-! ## Fixed-width big-endian numbers -/

/-- The `w` low-order bytes of `n`, most significant first. -/
def beBytes : ℕ → ℕ → List UInt8
  | 0, _ => []
  | w + 1, n => UInt8.ofNat (n / 256 ^ w) :: beBytes w n

@[simp] theorem length_beBytes (w n : ℕ) : (beBytes w n).length = w := by
  induction w with
  | zero => rfl
  | succ w ih => rw [beBytes, List.length_cons, ih]

theorem beBytes_mod (w m n : ℕ) (h : w ≤ m) : beBytes w (n % 256 ^ m) = beBytes w n := by
  induction w with
  | zero => rfl
  | succ w ih =>
    have hdigit : UInt8.ofNat (n % 256 ^ m / 256 ^ w) = UInt8.ofNat (n / 256 ^ w) := by
      obtain ⟨k, rfl⟩ : ∃ k, m = w + (k + 1) := ⟨m - w - 1, by omega⟩
      rw [pow_add, Nat.mod_mul_right_div_self, ← UInt8.toNat_inj]
      rw [UInt8.toNat_ofNat', UInt8.toNat_ofNat']
      exact Nat.mod_mod_of_dvd _ (dvd_pow_self 256 (Nat.succ_ne_zero k))
    rw [beBytes, beBytes, ih (by omega), hdigit]

theorem compare_digit {a b : ℕ} (ha : a < 256) (hb : b < 256) :
    compare (UInt8.ofNat a) (UInt8.ofNat b) = compare a b := by
  have hcmp : ∀ x y : UInt8, compare x y = compare x.toNat y.toNat := by
    intro x y
    show compareOfLessAndEq x y = compareOfLessAndEq x.toNat y.toNat
    simp only [compareOfLessAndEq, UInt8.lt_iff_toNat_lt, UInt8.toNat_inj]
  rw [hcmp, UInt8.toNat_ofNat', UInt8.toNat_ofNat', Nat.mod_eq_of_lt ha, Nat.mod_eq_of_lt hb]

/-- **Big-endian bytes compare as the numbers they write.** -/
theorem compare_beBytes {w a b : ℕ} (ha : a < 256 ^ w) (hb : b < 256 ^ w) :
    compare (beBytes w a) (beBytes w b) = compare a b := by
  induction w generalizing a b with
  | zero =>
    obtain rfl : a = 0 := by simpa using ha
    obtain rfl : b = 0 := by simpa using hb
    rfl
  | succ w ih =>
    have hpos : 0 < 256 ^ w := Nat.pos_of_ne_zero (by positivity)
    have hrest := ih (Nat.mod_lt a hpos) (Nat.mod_lt b hpos)
    rw [beBytes_mod w w a le_rfl, beBytes_mod w w b le_rfl] at hrest
    rw [beBytes, beBytes, List.compare_cons_cons, hrest,
      compare_digit (Nat.div_lt_of_lt_mul (by rwa [pow_succ] at ha))
        (Nat.div_lt_of_lt_mul (by rwa [pow_succ] at hb))]
    -- the leading digits decide unless they agree, and then the remainders do
    have hda := Nat.div_add_mod a (256 ^ w)
    have hdb := Nat.div_add_mod b (256 ^ w)
    rcases Nat.lt_trichotomy (a / 256 ^ w) (b / 256 ^ w) with hlt | heq | hgt
    · rw [Nat.compare_eq_lt.2 hlt, Nat.compare_eq_lt.2 (Nat.lt_of_div_lt_div hlt)]
      rfl
    · rw [heq] at hda
      rw [heq, Nat.compare_eq_eq.2 rfl, Ordering.eq_then]
      rcases Nat.lt_trichotomy (a % 256 ^ w) (b % 256 ^ w) with hlt | hmod | hgt
      · rw [Nat.compare_eq_lt.2 hlt, Nat.compare_eq_lt.2 (by omega)]
      · rw [Nat.compare_eq_eq.2 hmod, Nat.compare_eq_eq.2 (by omega)]
      · rw [Nat.compare_eq_gt.2 hgt, Nat.compare_eq_gt.2 (by omega)]
    · rw [Nat.compare_eq_gt.2 hgt, Nat.compare_eq_gt.2 (Nat.lt_of_div_lt_div hgt)]
      rfl

theorem beBytes_inj {w a b : ℕ} (ha : a < 256 ^ w) (hb : b < 256 ^ w)
    (h : beBytes w a = beBytes w b) : a = b := by
  have hc := compare_beBytes ha hb
  rw [h] at hc
  exact LawfulEqCmp.eq_of_compare (hc.symm.trans ReflCmp.compare_self)

end Lib.Compare
