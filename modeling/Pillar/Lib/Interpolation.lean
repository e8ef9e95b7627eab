import Mathlib

/-!
# Interpolation at zero

A polynomial of degree less than `k` is determined by its values at `k` points.

* `eval_zero_eq_sum` — **the value at zero** as the sum that a program computes.
-/

namespace Lib.Interpolation

open Polynomial

variable {F : Type*} [Field F]

/-! ## Coefficients -/

noncomputable def ofCoeffs : List F → F[X]
  | [] => 0
  | c :: cs => C c + X * ofCoeffs cs

@[simp] theorem eval_ofCoeffs_nil (x : F) : (ofCoeffs []).eval x = 0 := by
  simp [ofCoeffs]

@[simp] theorem eval_ofCoeffs_cons (c : F) (cs : List F) (x : F) :
    (ofCoeffs (c :: cs)).eval x = c + x * (ofCoeffs cs).eval x := by
  simp [ofCoeffs]

theorem degree_ofCoeffs_lt (cs : List F) : (ofCoeffs cs).degree < cs.length := by
  induction cs with
  | nil => simp [ofCoeffs]
  | cons c cs ih =>
    rw [degree_lt_iff_coeff_zero] at ih ⊢
    intro m hm
    obtain ⟨m, rfl⟩ : ∃ m', m = m' + 1 := Nat.exists_eq_succ_of_ne_zero (by rintro rfl; simp at hm)
    rw [ofCoeffs, coeff_add, coeff_C_succ, coeff_X_mul, zero_add]
    exact ih m (by simpa using hm)

/-! ## The value at zero -/

theorem prod_ite_eq_prod_erase {ι : Type*} [Fintype ι] [DecidableEq ι] (i : ι) (a : ι → F) :
    ∏ j, (if i = j then 1 else a j) = ∏ j ∈ Finset.univ.erase i, a j := by
  rw [← Finset.mul_prod_erase Finset.univ _ (Finset.mem_univ i), if_pos rfl, one_mul]
  refine Finset.prod_congr rfl fun j hj => if_neg ?_
  exact (Finset.ne_of_mem_erase hj).symm

/-- The factors of the other entries of a list. -/
theorem prod_ite_get {α : Type*} [DecidableEq α] (l : List α) (i : Fin l.length) (a : α → F) :
    ∏ j, (if i = j then 1 else a (l.get j)) = ((l.erase (l.get i)).map a).prod := by
  have herase : (Finset.univ.erase i).val.map l.get = (l.erase (l.get i) : Multiset α) := by
    rw [Finset.erase_val, Multiset.map_erase_of_mem _ _ (Finset.mem_univ_val i), Fin.univ_val_map,
      List.ofFn_get, Multiset.coe_erase]
  rw [prod_ite_eq_prod_erase i fun j => a (l.get j), ← Multiset.prod_coe, ← Multiset.map_coe,
    ← herase, Multiset.map_map]
  rfl

/-- **The value at zero** of a polynomial of degree less than the number of points. -/
theorem eval_zero_eq_sum {ι : Type*} [Fintype ι] [DecidableEq ι] {x : ι → F}
    (hx : Function.Injective x) {f : F[X]} (hf : f.degree < Fintype.card ι) :
    f.eval 0 = ∑ i, f.eval (x i) * (∏ j, if i = j then 1 else -x j) *
      (∏ j, if i = j then 1 else x i - x j)⁻¹ := by
  have hinterpolate := Lagrange.eq_interpolate (s := Finset.univ) (v := x) hx.injOn hf
  conv_lhs => rw [hinterpolate, Lagrange.interpolate_apply, eval_finsetSum]
  refine Finset.sum_congr rfl fun i _ => ?_
  rw [eval_mul, eval_C, Lagrange.basis, eval_prod, prod_ite_eq_prod_erase, prod_ite_eq_prod_erase,
    mul_assoc, ← Finset.prod_inv_distrib, ← Finset.prod_mul_distrib]
  congr 1
  refine Finset.prod_congr rfl fun j _ => ?_
  simp [Lagrange.basisDivisor, mul_comm]

/-! ## Loops over positions -/

theorem prod_map_zipIdx {α M : Type*} [CommMonoid M] (l : List α) (f : α → ℕ → M) :
    (l.zipIdx.map fun e => f e.1 e.2).prod = ∏ i : Fin l.length, f (l.get i) i := by
  have hlist : (l.zipIdx.map fun e => f e.1 e.2) = List.ofFn fun i : Fin l.length => f (l.get i) i := by
    refine List.ext_getElem (by simp) fun i hi hi' => ?_
    simp
  rw [hlist, List.prod_ofFn]

theorem sum_map_zipIdx {α M : Type*} [AddCommMonoid M] (l : List α) (f : α → ℕ → M) :
    (l.zipIdx.map fun e => f e.1 e.2).sum = ∑ i : Fin l.length, f (l.get i) i :=
  prod_map_zipIdx (M := Multiplicative M) l f

end Lib.Interpolation
