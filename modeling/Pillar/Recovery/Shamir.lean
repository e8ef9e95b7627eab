import Pillar.Core
import Pillar.Lib.Interpolation

/-!
# Shares of the recovery key

`pillar-recovery`'s k-of-n split: the recovery key is the constant term of a polynomial over the
field of `2 ^ 61 - 1` elements, a share is a point of it, and the key is recovered by interpolation
at zero.

* `shamir_exact` — **recovery is exact** precisely for short lists and for keys of the field whose
  first `k` shares differ, up to coincidences.
-/

namespace Pillar.Recovery

open Lib.Interpolation Polynomial

/-! ## The code -/

abbrev RecoveryKey := UInt64

inductive RecoveryError where
  | wrongRecoveryKey
  | notSealedToRequester
  | artifactNotFound
  | subThresholdShares (have_ need : ℕ)
  | insufficientVouchers (have_ need : ℕ)
  | voucherNotAuthoritative (voucher : NodeId)
  | nothingToRecover
  deriving DecidableEq

def fieldPrime : ℕ := 2305843009213693951

structure ShamirShare where
  index : UInt64
  value : UInt64
  deriving DecidableEq

def splitmix64 (x : UInt64) : UInt64 :=
  let z := x + 0x9E3779B97F4A7C15
  let z := (z ^^^ (z >>> 30)) * 0xBF58476D1CE4E5B9
  let z := (z ^^^ (z >>> 27)) * 0x94D049BB133111EB
  z ^^^ (z >>> 31)

def modPowLoop (modulus : ℕ) : ℕ → ℕ → ℕ → ℕ → ℕ
  | 0, result, _, _ => result
  | rounds + 1, result, base, exp =>
    if exp = 0 then result
    else modPowLoop modulus rounds (if exp % 2 = 1 then result * base % modulus else result)
      (base * base % modulus) (exp / 2)

def modPow (base exp modulus : ℕ) : ℕ := modPowLoop modulus 128 1 (base % modulus) exp

def coefficients (secret : RecoveryKey) (k : ℕ) (seed : UInt64) : List ℕ :=
  (secret :: List.iterate splitmix64 (splitmix64 seed) (k - 1)).map fun c => c.toNat % fieldPrime

/-- The value of the polynomial. -/
def valueAt (coeffs : List ℕ) (x : UInt64) : ℕ :=
  (coeffs.foldl (fun (s : ℕ × ℕ) c =>
    ((s.1 + c * s.2) % fieldPrime, s.2 * x.toNat % fieldPrime)) (0, 1)).1

def shareAt (coeffs : List ℕ) (x : UInt64) : ShamirShare := ⟨x, UInt64.ofNat (valueAt coeffs x)⟩

def shamirSplit (secret : RecoveryKey) (k n : ℕ) (seed : UInt64) : Option (List ShamirShare) :=
  if 1 ≤ k ∧ k ≤ n then
    some ((List.range' 1 n).map fun x => shareAt (coefficients secret k seed) (UInt64.ofNat x))
  else none

/-- The products of one point over the others: what is divided, and by what. -/
def lagrange (pts : List ShamirShare) (i : ℕ) (xi : ℕ) : ℕ × ℕ :=
  pts.zipIdx.foldl (fun (nd : ℕ × ℕ) e =>
    if i = e.2 then nd
    else
      let xj := e.1.index.toNat % fieldPrime
      (nd.1 * ((fieldPrime - xj) % fieldPrime) % fieldPrime,
        nd.2 * ((xi + fieldPrime - xj) % fieldPrime) % fieldPrime)) (1, 1)

def term (pts : List ShamirShare) (i : ℕ) (pi : ShamirShare) : ℕ :=
  let nd := lagrange pts i (pi.index.toNat % fieldPrime)
  pi.value.toNat % fieldPrime * nd.1 % fieldPrime * modPow nd.2 (fieldPrime - 2) fieldPrime %
    fieldPrime

def shamirReconstruct (shares : List ShamirShare) (k : ℕ) : Except RecoveryError RecoveryKey :=
  if shares.length < k then .error (.subThresholdShares shares.length k)
  else
    let pts := shares.take k
    .ok (UInt64.ofNat (pts.zipIdx.foldl (fun secret e =>
      (secret + term pts e.2 e.1) % fieldPrime) 0))

/-! ## The field -/

theorem fieldPrime_prime : Nat.Prime fieldPrime := by
  have h : Nat.Prime (mersenne 61) := lucas_lehmer_sufficiency _ (by norm_num) (by norm_num)
  have hp : mersenne 61 = fieldPrime := by norm_num [mersenne, fieldPrime]
  rwa [hp] at h

instance : Fact (Nat.Prime fieldPrime) := ⟨fieldPrime_prime⟩

abbrev Field61 := ZMod fieldPrime

theorem cast_sub_mod {a : ℕ} (h : a ≤ fieldPrime) (b : ℕ) :
    ((b + fieldPrime - a : ℕ) : Field61) = b - a := by
  rw [Nat.cast_sub (h.trans (Nat.le_add_left _ _)), Nat.cast_add, ZMod.natCast_self, add_zero]

theorem eq_of_cast {a b : ℕ} (ha : a < fieldPrime) (hb : b < fieldPrime)
    (h : (a : Field61) = b) : a = b := by
  have hnat := (ZMod.natCast_eq_natCast_iff' _ _ _).1 h
  rwa [Nat.mod_eq_of_lt ha, Nat.mod_eq_of_lt hb] at hnat

theorem cast_modPowLoop (rounds result base exp : ℕ) (h : exp < 2 ^ rounds) :
    (modPowLoop fieldPrime rounds result base exp : Field61) = result * base ^ exp := by
  induction rounds generalizing result base exp with
  | zero =>
    obtain rfl : exp = 0 := by simpa using h
    simp [modPowLoop]
  | succ rounds ih =>
    rw [modPowLoop]
    split_ifs with hzero hodd
    · simp [hzero]
    · rw [ih _ _ _ (by omega), ZMod.natCast_mod, ZMod.natCast_mod, Nat.cast_mul, Nat.cast_mul,
        ← sq, ← pow_mul, mul_assoc, ← pow_succ']
      congr 2
      omega
    · rw [ih _ _ _ (by omega), ZMod.natCast_mod, Nat.cast_mul, ← sq, ← pow_mul]
      congr 2
      omega

theorem cast_modPow (a : ℕ) :
    (modPow a (fieldPrime - 2) fieldPrime : Field61) = (a : Field61)⁻¹ := by
  rw [modPow, cast_modPowLoop _ _ _ _ (by decide), Nat.cast_one, one_mul, ZMod.natCast_mod]
  by_cases ha : (a : Field61) = 0
  · rw [ha, inv_zero]
    exact zero_pow (by decide)
  · refine eq_inv_of_mul_eq_one_left ?_
    rw [← pow_succ]
    exact ZMod.pow_card_sub_one_eq_one ha

noncomputable def polynomial (coeffs : List ℕ) : Polynomial Field61 :=
  ofCoeffs (coeffs.map (Nat.cast : ℕ → Field61))

theorem cast_valueAt (coeffs : List ℕ) (x : UInt64) :
    (valueAt coeffs x : Field61) = (polynomial coeffs).eval (x.toNat : Field61) := by
  -- the loop has summed up the first terms and keeps the next power
  have hloop : ∀ (cs : List ℕ) (s : ℕ × ℕ), (((cs.foldl (fun (s : ℕ × ℕ) c =>
      ((s.1 + c * s.2) % fieldPrime, s.2 * x.toNat % fieldPrime)) s).1 : ℕ) : Field61) =
      s.1 + s.2 * (polynomial cs).eval (x.toNat : Field61) := by
    intro cs
    induction cs with
    | nil => simp [polynomial]
    | cons c cs ih =>
      intro s
      rw [List.foldl_cons, ih]
      simp only [polynomial, List.map_cons, eval_ofCoeffs_cons, ZMod.natCast_mod, Nat.cast_add,
        Nat.cast_mul]
      ring
  rw [valueAt, hloop]
  simp

theorem valueAt_lt (coeffs : List ℕ) (x : UInt64) : valueAt coeffs x < fieldPrime := by
  have hloop : ∀ (cs : List ℕ) (s : ℕ × ℕ), s.1 < fieldPrime → (cs.foldl (fun (s : ℕ × ℕ) c =>
      ((s.1 + c * s.2) % fieldPrime, s.2 * x.toNat % fieldPrime)) s).1 < fieldPrime := by
    intro cs
    induction cs with
    | nil => exact fun s h => h
    | cons c cs ih => exact fun s _ => ih _ (Nat.mod_lt _ (by decide))
  exact hloop coeffs (0, 1) (by decide)

theorem cast_lagrange (pts : List ShamirShare) (i xi : ℕ) :
    ((lagrange pts i xi).1 : Field61) =
        ∏ j : Fin pts.length, (if i = j then 1 else -((pts.get j).index.toNat : Field61)) ∧
      ((lagrange pts i xi).2 : Field61) =
        ∏ j : Fin pts.length, if i = j then 1 else (xi - (pts.get j).index.toNat : Field61) := by
  have hloop : ∀ (es : List (ShamirShare × ℕ)) (nd : ℕ × ℕ),
      (((es.foldl (fun (nd : ℕ × ℕ) e => if i = e.2 then nd else
        let xj := e.1.index.toNat % fieldPrime
        (nd.1 * ((fieldPrime - xj) % fieldPrime) % fieldPrime,
          nd.2 * ((xi + fieldPrime - xj) % fieldPrime) % fieldPrime)) nd).1 : ℕ) : Field61) =
        nd.1 * (es.map fun e => if i = e.2 then 1 else -(e.1.index.toNat : Field61)).prod ∧
      (((es.foldl (fun (nd : ℕ × ℕ) e => if i = e.2 then nd else
        let xj := e.1.index.toNat % fieldPrime
        (nd.1 * ((fieldPrime - xj) % fieldPrime) % fieldPrime,
          nd.2 * ((xi + fieldPrime - xj) % fieldPrime) % fieldPrime)) nd).2 : ℕ) : Field61) =
        nd.2 * (es.map fun e => if i = e.2 then 1 else (xi - e.1.index.toNat : Field61)).prod := by
    intro es
    induction es with
    | nil => simp
    | cons e es ih =>
      intro nd
      rw [List.foldl_cons, List.map_cons, List.map_cons, List.prod_cons, List.prod_cons]
      obtain ⟨ih₁, ih₂⟩ := ih (if i = e.2 then nd else
        let xj := e.1.index.toNat % fieldPrime
        (nd.1 * ((fieldPrime - xj) % fieldPrime) % fieldPrime,
          nd.2 * ((xi + fieldPrime - xj) % fieldPrime) % fieldPrime))
      rw [ih₁, ih₂]
      have hle : e.1.index.toNat % fieldPrime ≤ fieldPrime := (Nat.mod_lt _ (by decide)).le
      have hneg := cast_sub_mod hle 0
      rw [Nat.zero_add] at hneg
      split_ifs with hi
      · simp
      · simp only [ZMod.natCast_mod, Nat.cast_mul, hneg, cast_sub_mod hle]
        constructor
        · push_cast
          ring
        · ring
  obtain ⟨h₁, h₂⟩ := hloop pts.zipIdx (1, 1)
  rw [lagrange, h₁, h₂,
    prod_map_zipIdx pts fun e j => if i = j then 1 else -(e.index.toNat : Field61),
    prod_map_zipIdx pts fun e j => if i = j then 1 else (xi - e.index.toNat : Field61)]
  simp

theorem cast_term (pts : List ShamirShare) (i : ℕ) (pi : ShamirShare) :
    (term pts i pi : Field61) = pi.value.toNat *
      (∏ j : Fin pts.length, if i = j then 1 else -((pts.get j).index.toNat : Field61)) *
      (∏ j : Fin pts.length, if i = j then 1 else
        (pi.index.toNat - (pts.get j).index.toNat : Field61))⁻¹ := by
  obtain ⟨h₁, h₂⟩ := cast_lagrange pts i (pi.index.toNat % fieldPrime)
  rw [ZMod.natCast_mod] at h₂
  simp only [term, ZMod.natCast_mod, Nat.cast_mul, cast_modPow, h₁, h₂]

theorem cast_sum_terms (pts : List ShamirShare) :
    ((pts.zipIdx.foldl (fun secret e => (secret + term pts e.2 e.1) % fieldPrime) 0 : ℕ) :
      Field61) = ∑ i : Fin pts.length, (term pts i (pts.get i) : Field61) := by
  have hloop : ∀ (es : List (ShamirShare × ℕ)) (secret : ℕ),
      ((es.foldl (fun secret e => (secret + term pts e.2 e.1) % fieldPrime) secret : ℕ) : Field61) =
        secret + (es.map fun e => (term pts e.2 e.1 : Field61)).sum := by
    intro es
    induction es with
    | nil =>
      intro secret
      rw [List.foldl_nil, List.map_nil, List.sum_nil, add_zero]
    | cons e es ih =>
      intro secret
      rw [List.foldl_cons, ih, ZMod.natCast_mod, Nat.cast_add, List.map_cons, List.sum_cons, add_assoc]
  rw [hloop, Nat.cast_zero, zero_add, sum_map_zipIdx pts fun e i => (term pts i e : Field61)]

theorem sum_terms_lt {pts : List ShamirShare} (es : List (ShamirShare × ℕ)) {secret : ℕ}
    (h : secret < fieldPrime) :
    es.foldl (fun secret e => (secret + term pts e.2 e.1) % fieldPrime) secret < fieldPrime := by
  induction es generalizing secret with
  | nil => exact h
  | cons e es ih =>
    rw [List.foldl_cons]
    exact ih (Nat.mod_lt _ (by decide))

/-- What interpolation gives when shares are repeated: the denominator of a repeated share is zero,
and so is the inverse that the code takes of it, so only the shares that occur once count. -/
def onceValue (pts : List ShamirShare) : Field61 :=
  (pts.map fun s => if pts.count s = 1 then
    s.value.toNat * ((pts.erase s).map fun t => -(t.index.toNat : Field61)).prod *
      ((pts.erase s).map fun t => (s.index.toNat - t.index.toNat : Field61)).prod⁻¹ else 0).sum

theorem cast_sum_terms_eq_onceValue (pts : List ShamirShare) :
    ((pts.zipIdx.foldl (fun secret e => (secret + term pts e.2 e.1) % fieldPrime) 0 : ℕ) :
      Field61) = onceValue pts := by
  rw [cast_sum_terms, onceValue, ← Fin.sum_univ_fun_getElem]
  refine Finset.sum_congr rfl fun i _ => ?_
  have hnum := prod_ite_get pts i fun t => -(t.index.toNat : Field61)
  have hden := prod_ite_get pts i fun t => ((pts.get i).index.toNat - t.index.toNat : Field61)
  simp only [← Fin.val_inj] at hnum hden
  rw [cast_term, hnum, hden]
  split_ifs with honce
  · rfl
  · -- the share is there once more, and the denominator has its own index taken from it
    have hmem : pts.get i ∈ pts.erase (pts.get i) := by
      have htwo : pts.count (pts.get i) ≠ 1 := honce
      have hpos : 0 < pts.count (pts.get i) := List.count_pos_iff.2 (List.get_mem pts i)
      rw [← List.count_pos_iff, List.count_erase_self]
      omega
    have hzero : ((pts.erase (pts.get i)).map fun t =>
        ((pts.get i).index.toNat - t.index.toNat : Field61)).prod = 0 :=
      List.prod_eq_zero (List.mem_map.2 ⟨_, hmem, sub_self _⟩)
    rw [hzero, inv_zero, mul_zero]

/-! ## Recovery -/

variable {shares : List ShamirShare} {secret : RecoveryKey}

/-- **Points of a polynomial give its constant term.** -/
theorem shamirReconstruct_of_points {f : Polynomial Field61} {k : ℕ}
    (hk : k ≤ shares.length) (hdegree : f.degree < k)
    (hvalues : ∀ s ∈ shares, (s.value.toNat : Field61) = f.eval (s.index.toNat : Field61))
    (hdistinct : ((shares.take k).map fun s => (s.index.toNat : Field61)).Nodup) {a : ℕ}
    (ha : a < fieldPrime) (hconst : f.eval 0 = a) :
    shamirReconstruct shares k = .ok (UInt64.ofNat a) := by
  have hlength : (shares.take k).length = k := List.length_take_of_le hk
  have hinjective : Function.Injective fun i : Fin (shares.take k).length =>
      (((shares.take k).get i).index.toNat : Field61) := by
    intro i j hij
    have hi : i.val < ((shares.take k).map fun s => (s.index.toNat : Field61)).length := by
      rw [List.length_map]
      exact i.isLt
    have hj : j.val < ((shares.take k).map fun s => (s.index.toNat : Field61)).length := by
      rw [List.length_map]
      exact j.isLt
    have hget : ((shares.take k).map fun s => (s.index.toNat : Field61))[i.val] =
        ((shares.take k).map fun s => (s.index.toNat : Field61))[j.val] := by
      rw [List.getElem_map, List.getElem_map]
      exact hij
    exact Fin.ext ((List.Nodup.getElem_inj_iff hdistinct).1 hget)
  have hcard : f.degree < Fintype.card (Fin (shares.take k).length) := by
    rw [Fintype.card_fin, hlength]
    exact hdegree
  have hzero := eval_zero_eq_sum hinjective hcard
  have hsum : ((((shares.take k).zipIdx.foldl (fun secret e =>
      (secret + term (shares.take k) e.2 e.1) % fieldPrime) 0 : ℕ)) : Field61) = a := by
    rw [cast_sum_terms, ← hconst, hzero]
    refine Finset.sum_congr rfl fun i _ => ?_
    rw [cast_term, hvalues _ (List.mem_of_mem_take (List.get_mem _ i))]
    simp [Fin.val_inj]
  have hnat := (ZMod.natCast_eq_natCast_iff' _ _ _).1 hsum
  rw [Nat.mod_eq_of_lt (sum_terms_lt _ (by decide)), Nat.mod_eq_of_lt ha] at hnat
  rw [shamirReconstruct, if_neg (Nat.not_lt.2 hk)]
  simp [hnat]

theorem mem_shamirSplit {k n : ℕ} {seed : UInt64}
    (h : shamirSplit secret k n seed = some shares) {s : ShamirShare} :
    s ∈ shares ↔ ∃ x, 1 ≤ x ∧ x ≤ n ∧ s = shareAt (coefficients secret k seed) (UInt64.ofNat x) := by
  rw [shamirSplit] at h
  split_ifs at h
  obtain rfl := Option.some.inj h
  simp only [List.mem_map, List.mem_range'_1]
  constructor
  · rintro ⟨x, ⟨h₁, h₂⟩, rfl⟩
    exact ⟨x, h₁, by omega, rfl⟩
  · rintro ⟨x, h₁, h₂, rfl⟩
    exact ⟨x, ⟨h₁, by omega⟩, rfl⟩

theorem degree_polynomial_lt (secret : RecoveryKey) {k : ℕ} (hk : 1 ≤ k) (seed : UInt64) :
    (polynomial (coefficients secret k seed)).degree < k := by
  have hlength : ((coefficients secret k seed).map (Nat.cast : ℕ → Field61)).length = k := by
    rw [List.length_map, coefficients, List.length_map, List.length_cons, List.length_iterate]
    omega
  have hdegree := degree_ofCoeffs_lt ((coefficients secret k seed).map (Nat.cast : ℕ → Field61))
  rwa [hlength] at hdegree

theorem eval_zero_polynomial (secret : RecoveryKey) (k : ℕ) (seed : UInt64) :
    (polynomial (coefficients secret k seed)).eval 0 = (secret.toNat % fieldPrime : ℕ) := by
  rw [polynomial, coefficients, List.map_cons, List.map_cons, eval_ofCoeffs_cons, zero_mul, add_zero]

section Split

variable {secret : RecoveryKey} {k n : ℕ} {seed : UInt64} {shares : List ShamirShare}

theorem toNat_index (hn : n < fieldPrime) {x : ℕ} (hx : x ≤ n) : (UInt64.ofNat x).toNat = x :=
  UInt64.toNat_ofNat_of_lt' (by
    have hp : fieldPrime < UInt64.size := by decide
    omega)

variable {s : ShamirShare}

theorem toNat_value_of_mem (h : shamirSplit secret k n seed = some shares) (hs : s ∈ shares) :
    s.value.toNat = valueAt (coefficients secret k seed) s.index := by
  obtain ⟨x, -, -, rfl⟩ := (mem_shamirSplit h).1 hs
  have hp : fieldPrime < UInt64.size := by decide
  exact UInt64.toNat_ofNat_of_lt' ((valueAt_lt _ _).trans hp)

theorem cast_value_of_mem (h : shamirSplit secret k n seed = some shares) (hs : s ∈ shares) :
    (s.value.toNat : Field61) =
      (polynomial (coefficients secret k seed)).eval (s.index.toNat : Field61) := by
  rw [toNat_value_of_mem h hs, cast_valueAt]

theorem index_injective (hn : n < fieldPrime) (h : shamirSplit secret k n seed = some shares)
    {t : ShamirShare} (hs : s ∈ shares) (ht : t ∈ shares)
    (hindex : (s.index.toNat : Field61) = t.index.toNat) : s = t := by
  obtain ⟨x, -, hx, rfl⟩ := (mem_shamirSplit h).1 hs
  obtain ⟨y, -, hy, rfl⟩ := (mem_shamirSplit h).1 ht
  have hnat := (ZMod.natCast_eq_natCast_iff' _ _ _).1 hindex
  rw [shareAt, shareAt, toNat_index hn hx, toNat_index hn hy, Nat.mod_eq_of_lt (by omega),
    Nat.mod_eq_of_lt (by omega)] at hnat
  rw [hnat]

/-- **From `k` different shares the key is recovered.** -/
theorem shamirReconstruct_of_distinct (hk : 1 ≤ k) (hn : n < fieldPrime)
    (h : shamirSplit secret k n seed = some shares) {L : List ShamirShare}
    (hL : ∀ s ∈ L, s ∈ shares) (hlength : k ≤ L.length) (hdistinct : (L.take k).Nodup) :
    shamirReconstruct L k = .ok (UInt64.ofNat (secret.toNat % fieldPrime)) := by
  refine shamirReconstruct_of_points hlength (degree_polynomial_lt secret hk seed)
    (fun s hs => cast_value_of_mem h (hL s hs)) ?_ (Nat.mod_lt _ (by decide))
    (eval_zero_polynomial secret k seed)
  refine List.Nodup.map_on (fun s hs t ht hindex => ?_) hdistinct
  exact index_injective hn h (hL s (List.mem_of_mem_take hs)) (hL t (List.mem_of_mem_take ht)) hindex

/-- **Recovery is exact** precisely for these keys and lists. -/
theorem shamir_exact (hk : 1 ≤ k) (hn : n < 2 ^ 61 - 1)
    (h : shamirSplit secret k n seed = some shares) (L : List ShamirShare)
    (hL : ∀ s ∈ L, s ∈ shares) :
    shamirReconstruct L k =
        (if k ≤ L.toFinset.card then .ok secret else .error (.subThresholdShares L.length k)) ↔
      L.length < k ∨ secret.toNat < 2 ^ 61 - 1 ∧
        ((L.take k).Nodup ∨ k ≤ L.toFinset.card ∧ onceValue (L.take k) = secret.toNat) := by
  have hprime : fieldPrime = 2 ^ 61 - 1 := by decide
  have hsize : fieldPrime < UInt64.size := by decide
  rw [← hprime] at hn ⊢
  by_cases hlength : k ≤ L.length
  · rw [or_iff_right (Nat.not_lt.2 hlength)]
    by_cases hdistinct : (L.take k).Nodup
    · have hcard : k ≤ L.toFinset.card := by
        have htake := List.toFinset_card_of_nodup hdistinct
        rw [List.length_take_of_le hlength] at htake
        rw [← htake]
        exact Finset.card_le_card fun s hs =>
          List.mem_toFinset.2 (List.mem_of_mem_take (List.mem_toFinset.1 hs))
      rw [if_pos hcard, shamirReconstruct_of_distinct hk hn h hL hlength hdistinct,
        Except.ok.injEq, ← UInt64.toNat_inj, UInt64.toNat_ofNat_of_lt'
          ((Nat.mod_lt _ (by decide)).trans hsize), Nat.mod_eq_iff_lt (by decide)]
      simp [hdistinct]
    · have hlt := @sum_terms_lt (L.take k) (L.take k).zipIdx 0
        (show (0 : ℕ) < fieldPrime by decide)
      have hcast := cast_sum_terms_eq_onceValue (L.take k)
      rw [shamirReconstruct, if_neg (Nat.not_lt.2 hlength)]
      dsimp only
      generalize (L.take k).zipIdx.foldl _ 0 = v at hlt hcast
      split_ifs with hcard
      · rw [Except.ok.injEq, ← UInt64.toNat_inj, UInt64.toNat_ofNat_of_lt' (hlt.trans hsize),
          ← hcast]
        constructor
        · rintro rfl
          exact ⟨hlt, .inr ⟨hcard, rfl⟩⟩
        · rintro ⟨hsecret, hdup | ⟨-, heq⟩⟩
          · exact absurd hdup hdistinct
          · exact eq_of_cast hlt hsecret heq
      · simp [hcard, hdistinct]
  · have hcard : ¬ k ≤ L.toFinset.card := fun hle => hlength (hle.trans (List.toFinset_card_le L))
    rw [if_neg hcard, shamirReconstruct, if_pos (Nat.lt_of_not_le hlength)]
    simp [Nat.lt_of_not_le hlength]

end Split

def threeShares : List ShamirShare :=
  (List.range' 1 3).map fun x => shareAt (coefficients 7 2 1) (UInt64.ofNat x)

theorem threeShares_split : shamirSplit 7 2 3 1 = some threeShares := rfl

/-- The last two shares, in either order, give the key back, and one of them alone does not. -/
theorem threeShares_exact :
    shamirReconstruct (threeShares.drop 1).reverse 2 = .ok 7 ∧
      shamirReconstruct (threeShares.drop 2) 2 = .error (.subThresholdShares 1 2) := by
  refine ⟨?_, ?_⟩
  · rw [(shamir_exact (by decide) (by decide) threeShares_split _ (by decide +kernel)).2
      (.inr ⟨by decide, .inl (by decide +kernel)⟩)]
    decide +kernel
  · rw [(shamir_exact (by decide) (by decide) threeShares_split _ (by decide +kernel)).2
      (.inl (by decide))]
    decide +kernel

/-- **Recovery is not exact.** -/
theorem shamir_inexact :
    (shamirSplit 2305843009213693951 1 1 0 = some [⟨1, 0⟩] ∧
      shamirReconstruct [⟨1, 0⟩] 1 = .ok 0) ∧
    shamirReconstruct [threeShares[0], threeShares[0]] 2 = .ok 0 ∧
      shamirReconstruct [threeShares[0], threeShares[0], threeShares[1]] 2 = .ok 0 := by
  refine ⟨⟨?_, ?_⟩, ?_, ?_⟩ <;> decide +kernel

/-! ## What fewer shares than the threshold tell

`k - 1` points of a polynomial of degree `k - 1` fit every constant term, but only as long as the
other coefficients can be chosen freely.

* `shares_hide` — **fewer shares than the threshold tell nothing** precisely with threshold two. -/

/-! ## The generator -/

theorem xorShift_unshift {w k : ℕ} (h : w ≤ 3 * k) (v : BitVec w) :
    (v ^^^ v >>> k ^^^ v >>> (2 * k)) ^^^ (v ^^^ v >>> k ^^^ v >>> (2 * k)) >>> k = v := by
  refine BitVec.eq_of_getLsbD_eq fun i hi => ?_
  have hlast : v.getLsbD (2 * k + (k + i)) = false := BitVec.getLsbD_of_ge _ _ (by omega)
  have hmid : k + (k + i) = 2 * k + i := by omega
  simp only [BitVec.getLsbD_xor, BitVec.getLsbD_ushiftRight, hlast, hmid]
  cases v.getLsbD i <;> cases v.getLsbD (k + i) <;> cases v.getLsbD (2 * k + i) <;> rfl

theorem surjective_of_toBitVec {f : UInt64 → UInt64} {g : BitVec 64 → BitVec 64}
    (hf : ∀ z, (f z).toBitVec = g z.toBitVec) (hg : Function.Surjective g) :
    Function.Surjective f := by
  intro y
  obtain ⟨v, hv⟩ := hg y.toBitVec
  exact ⟨⟨v⟩, UInt64.eq_of_toBitVec_eq (by rw [hf, hv])⟩

theorem surjective_mul {c d : UInt64} (h : d * c = 1) : Function.Surjective fun z :
    UInt64 => z * c :=
  fun y => ⟨y * d, by simp [mul_assoc, h, mul_one]⟩

theorem splitmix64_surjective : Function.Surjective splitmix64 := by
  have h30 : Function.Surjective fun z : UInt64 => z ^^^ (z >>> 30) :=
    surjective_of_toBitVec (g := fun v => v ^^^ v >>> 30) (fun z => by simp)
      fun v => ⟨_, xorShift_unshift (by decide) v⟩
  have h27 : Function.Surjective fun z : UInt64 => z ^^^ (z >>> 27) :=
    surjective_of_toBitVec (g := fun v => v ^^^ v >>> 27) (fun z => by simp)
      fun v => ⟨_, xorShift_unshift (by decide) v⟩
  have h31 : Function.Surjective fun z : UInt64 => z ^^^ (z >>> 31) :=
    surjective_of_toBitVec (g := fun v => v ^^^ v >>> 31) (fun z => by simp)
      fun v => ⟨_, xorShift_unshift (by decide) v⟩
  have hmul₁ := surjective_mul (c := 0xBF58476D1CE4E5B9) (d := 0x96DE1B173F119089) (by decide)
  have hmul₂ := surjective_mul (c := 0x94D049BB133111EB) (d := 0x319642B2D24D8EC3) (by decide)
  have hadd : Function.Surjective fun x : UInt64 => x + 0x9E3779B97F4A7C15 :=
    fun y => ⟨y - 0x9E3779B97F4A7C15, sub_add_cancel y _⟩
  exact h31.comp (hmul₂.comp (h27.comp (hmul₁.comp (h30.comp hadd))))

/-! ## Shares that fit every key -/

def Hides (k n : ℕ) : Prop :=
  ∀ (secret secret' : RecoveryKey) (seed : UInt64) (shares : List ShamirShare)
    (T : Finset ShamirShare), secret.toNat < 2 ^ 61 - 1 → secret'.toNat < 2 ^ 61 - 1 →
    shamirSplit secret k n seed = some shares → (∀ s ∈ T, s ∈ shares) → T.card = k - 1 →
      ∃ seed' shares', shamirSplit secret' k n seed' = some shares' ∧ ∀ s ∈ T, s ∈ shares'

theorem exists_seed (a : Field61) :
    ∃ seed, (((splitmix64 seed).toNat % fieldPrime : ℕ) : Field61) = a := by
  obtain ⟨seed, hseed⟩ := splitmix64_surjective (UInt64.ofNat a.val)
  refine ⟨seed, ?_⟩
  have hlt : a.val < fieldPrime := ZMod.val_lt a
  have hsize : fieldPrime < UInt64.size := by decide
  rw [hseed, UInt64.toNat_ofNat_of_lt' (hlt.trans hsize), ZMod.natCast_mod, ZMod.natCast_zmod_val]

theorem coefficients_two (secret : RecoveryKey) (seed : UInt64) :
    coefficients secret 2 seed =
      [secret.toNat % fieldPrime, (splitmix64 seed).toNat % fieldPrime] := rfl

theorem exists_seed_valueAt {x : UInt64} (hx : (x.toNat : Field61) ≠ 0) (secret : RecoveryKey)
    (coeffs : List ℕ) : ∃ seed, valueAt (coefficients secret 2 seed) x = valueAt coeffs x := by
  obtain ⟨seed, hseed⟩ := exists_seed
    (((valueAt coeffs x : Field61) - (secret.toNat % fieldPrime : ℕ)) / x.toNat)
  refine ⟨seed, eq_of_cast (valueAt_lt _ _) (valueAt_lt _ _) ?_⟩
  rw [cast_valueAt, polynomial, coefficients_two, List.map_cons, List.map_cons, List.map_nil,
    eval_ofCoeffs_cons, eval_ofCoeffs_cons,
    eval_ofCoeffs_nil, hseed, mul_zero, add_zero, mul_div_cancel₀ _ hx,
    add_sub_cancel]

theorem index_ne_zero {n : ℕ} (hn : n < fieldPrime) {x : ℕ} (h₁ : 1 ≤ x) (h₂ : x ≤ n) :
    (((UInt64.ofNat x).toNat : ℕ) : Field61) ≠ 0 := by
  rw [toNat_index hn h₂, Ne, ZMod.natCast_eq_zero_iff]
  exact Nat.not_dvd_of_pos_of_lt h₁ (h₂.trans_lt hn)

/-- **With threshold two a share tells nothing.** -/
theorem hides_two {n : ℕ} (hn : n < 2 ^ 61 - 1) : Hides 2 n := by
  intro secret secret' seed shares T _ _ hsplit hT hcard
  have hp : n < fieldPrime := hn
  obtain ⟨s, rfl⟩ := Finset.card_eq_one.1 hcard
  obtain ⟨x, h₁, h₂, rfl⟩ := (mem_shamirSplit hsplit).1 (hT s (Finset.mem_singleton_self s))
  obtain ⟨seed', hseed'⟩ := exists_seed_valueAt (index_ne_zero hp h₁ h₂) secret'
    (coefficients secret 2 seed)
  obtain ⟨hle, -⟩ := Option.ite_none_right_eq_some.1 hsplit
  refine ⟨seed', _, if_pos hle, fun t ht => ?_⟩
  rw [Finset.mem_singleton.1 ht]
  refine (mem_shamirSplit (if_pos hle)).2 ⟨x, h₁, h₂, ?_⟩
  rw [shareAt, shareAt, hseed']

/-! ## Shares that fit only some keys -/

section Hiding
variable {k n : ℕ}

/-- The coefficients that the seed gives, without the key. -/
noncomputable def tail (k : ℕ) (seed : UInt64) : Polynomial Field61 :=
  ofCoeffs ((List.iterate splitmix64 (splitmix64 seed) (k - 1)).map fun c => (c.toNat : Field61))

/-- What the seed adds to the key at an index. -/
noncomputable def offset (k : ℕ) (seed : UInt64) (x : Field61) : Field61 := x * (tail k seed).eval x

theorem eval_polynomial (secret : RecoveryKey) (k : ℕ) (seed : UInt64) (x : Field61) :
    (polynomial (coefficients secret k seed)).eval x = secret.toNat + offset k seed x := by
  rw [polynomial, coefficients, List.map_cons, List.map_cons, eval_ofCoeffs_cons, offset, tail,
    ZMod.natCast_mod, List.map_map]
  congr 3
  exact congrArg _ (List.map_congr_left fun c _ => ZMod.natCast_mod _ _)

theorem degree_tail_lt (k : ℕ) (seed : UInt64) : (tail k seed).degree < (k - 1 : ℕ) := by
  have hdegree := degree_ofCoeffs_lt
    ((List.iterate splitmix64 (splitmix64 seed) (k - 1)).map fun c => (c.toNat : Field61))
  rwa [List.length_map, List.length_iterate] at hdegree

/-- The shares at some of the indices. -/
theorem exists_shares {I : Finset ℕ} (hI : I ⊆ Finset.Icc 1 n) (hn : n < 2 ^ 64) (hk : 1 ≤ k)
    (hkn : k ≤ n) (secret : RecoveryKey) (seed : UInt64) :
    ∃ (shares : List ShamirShare) (T : Finset ShamirShare),
      shamirSplit secret k n seed = some shares ∧ (∀ s ∈ T, s ∈ shares) ∧
      T.card = I.card ∧ ∀ x ∈ I, ∃ s ∈ T, s.index.toNat = x := by
  have hindex : ∀ x ∈ I, (UInt64.ofNat x).toNat = x := by
    intro x hx
    obtain ⟨-, hle⟩ := Finset.mem_Icc.1 (hI hx)
    exact UInt64.toNat_ofNat_of_lt' (hle.trans_lt hn)
  refine ⟨_, I.image fun x => shareAt (coefficients secret k seed) (UInt64.ofNat x),
    if_pos ⟨hk, hkn⟩, ?_, ?_, ?_⟩
  · intro s hs
    obtain ⟨x, hx, rfl⟩ := Finset.mem_image.1 hs
    obtain ⟨h₁, h₂⟩ := Finset.mem_Icc.1 (hI hx)
    exact (mem_shamirSplit (if_pos ⟨hk, hkn⟩)).2 ⟨x, h₁, h₂, rfl⟩
  · refine Finset.card_image_of_injOn fun x hx y hy hxy => ?_
    have hsame : UInt64.ofNat x = UInt64.ofNat y := congrArg ShamirShare.index hxy
    rw [← hindex x hx, hsame, hindex y hy]
  · exact fun x hx => ⟨_, Finset.mem_image_of_mem _ hx, hindex x hx⟩

/-- Hiding lets the values at the known indices be moved by any amount. -/
theorem Hides.moves (h : Hides k n) (hk : 1 ≤ k) (hkn : k ≤ n) (hn : n < fieldPrime)
    {I : Finset ℕ} (hI : I ⊆ Finset.Icc 1 n) (hcard : I.card = k - 1) (seed : UInt64)
    (d : Field61) : ∃ seed', ∀ x ∈ I, offset k seed' x = offset k seed x + d := by
  have hsize : fieldPrime < 2 ^ 64 := by decide
  have hd : (UInt64.ofNat d.val).toNat = d.val :=
    UInt64.toNat_ofNat_of_lt' ((ZMod.val_lt d).trans hsize)
  obtain ⟨shares, T, hsplit, hT, hTcard, hindex⟩ :=
    exists_shares hI (hn.trans hsize) hk hkn (UInt64.ofNat d.val) seed
  obtain ⟨seed', shares', hsplit', hmem⟩ := h (UInt64.ofNat d.val) 0 seed shares T
    (by rw [hd]; exact ZMod.val_lt d) (by decide) hsplit hT (hTcard.trans hcard)
  refine ⟨seed', fun x hx => ?_⟩
  obtain ⟨s, hs, rfl⟩ := hindex x hx
  have hvalue := (cast_value_of_mem hsplit' (hmem s hs)).symm.trans
    (cast_value_of_mem hsplit (hT s hs))
  rw [eval_polynomial, eval_polynomial, hd, ZMod.natCast_zmod_val] at hvalue
  simpa [add_comm] using hvalue

/-- What two seeds add differs by a constant at all indices only if it does not differ: the indices
are more than the degree. -/
theorem eq_zero_of_offset_sub (seed₁ seed₂ : UInt64) {c : Field61} (hk : 1 ≤ k)
    (hn : k < fieldPrime)
    (h : ∀ x ∈ Finset.Icc 1 k, offset k seed₁ x - offset k seed₂ x = c) : c = 0 := by
  have hcard : ((Finset.Icc 1 k).image (Nat.cast : ℕ → Field61)).card = k := by
    rw [Finset.card_image_of_injOn, Nat.card_Icc, Nat.add_sub_cancel]
    intro x hx y hy
    exact eq_of_cast ((Finset.mem_Icc.1 hx).2.trans_lt hn) ((Finset.mem_Icc.1 hy).2.trans_lt hn)
  have hdegree : (tail k seed₁ - tail k seed₂).degree < (k - 1 : ℕ) :=
    (degree_sub_le _ _).trans_lt (max_lt (degree_tail_lt k _) (degree_tail_lt k _))
  have hconst : X * (tail k seed₁ - tail k seed₂) = C c := by
    refine eq_of_degree_sub_lt_of_eval_finset_eq
      ((Finset.Icc 1 k).image (Nat.cast : ℕ → Field61)) ?_ ?_
    · rw [hcard]
      refine (degree_sub_le _ _).trans_lt (max_lt ?_ (degree_C_le.trans_lt (by exact_mod_cast hk)))
      rw [degree_lt_iff_coeff_zero] at hdegree ⊢
      intro m hm
      obtain ⟨m, rfl⟩ := Nat.exists_eq_succ_of_ne_zero (show m ≠ 0 by omega)
      rw [coeff_X_mul]
      exact hdegree m (by omega)
    · intro y hy
      obtain ⟨x, hx, rfl⟩ := Finset.mem_image.1 hy
      rw [eval_mul, eval_X, eval_C, eval_sub, mul_sub]
      exact h x hx
  have hzero := congrArg (eval 0) hconst
  rw [eval_mul, eval_X, zero_mul, eval_C] at hzero
  exact hzero.symm

/-- Two moves, of the values at `1, …, k - 1` and then of those at `2, …, k`, lead to different
seeds for different amounts. -/
theorem moves_injective {seed₁ seed₂ seed : UInt64} {d₁ d₂ e₁ e₂ : Field61} (hk : 3 ≤ k)
    (hn : k < fieldPrime) {g : Field61 → Field61}
    (hfirst₁ : ∀ x ∈ Finset.Icc 1 (k - 1), offset k seed₁ x = g x + d₁)
    (hfirst₂ : ∀ x ∈ Finset.Icc 1 (k - 1), offset k seed₂ x = g x + d₂)
    (hlast₁ : ∀ x ∈ Finset.Icc 2 k, offset k seed x = offset k seed₁ x + e₁)
    (hlast₂ : ∀ x ∈ Finset.Icc 2 k, offset k seed x = offset k seed₂ x + e₂) :
    d₁ = d₂ ∧ e₁ = e₂ := by
  have hboth : d₁ - d₂ = e₂ - e₁ := by
    have h1 := hfirst₁ 2 (Finset.mem_Icc.2 ⟨by omega, by omega⟩)
    have h2 := hfirst₂ 2 (Finset.mem_Icc.2 ⟨by omega, by omega⟩)
    have h3 := hlast₁ 2 (Finset.mem_Icc.2 ⟨by omega, by omega⟩)
    have h4 := hlast₂ 2 (Finset.mem_Icc.2 ⟨by omega, by omega⟩)
    linear_combination -h1 + h2 - h3 + h4
  have hzero : d₁ - d₂ = 0 := by
    refine eq_zero_of_offset_sub seed₁ seed₂ (by omega) hn fun x hx => ?_
    obtain ⟨h₁, h₂⟩ := Finset.mem_Icc.1 hx
    by_cases hlt : x ≤ k - 1
    · linear_combination hfirst₁ x (Finset.mem_Icc.2 ⟨h₁, hlt⟩) -
        hfirst₂ x (Finset.mem_Icc.2 ⟨h₁, hlt⟩)
    · rw [hboth]
      linear_combination hlast₂ x (Finset.mem_Icc.2 ⟨by omega, h₂⟩) -
        hlast₁ x (Finset.mem_Icc.2 ⟨by omega, h₂⟩)
  exact ⟨sub_eq_zero.1 hzero, (sub_eq_zero.1 (hboth ▸ hzero)).symm⟩

/-- **A seed cannot hide with a threshold of three or more**: there are fewer seeds than pairs of
field elements. -/
theorem not_hides_of_three_le (hk : 3 ≤ k) (hkn : k ≤ n) (hn : n < fieldPrime) : ¬ Hides k n := by
  intro h
  have hfirst : Finset.Icc 1 (k - 1) ⊆ Finset.Icc 1 n := Finset.Icc_subset_Icc_right (by omega)
  have hlast : Finset.Icc 2 k ⊆ Finset.Icc 1 n := Finset.Icc_subset_Icc (by omega) hkn
  choose first hmoved using h.moves (by omega) hkn hn hfirst (by rw [Nat.card_Icc]; omega)
  choose last hmoved' using h.moves (by omega) hkn hn hlast (by rw [Nat.card_Icc]; omega)
  have hinjective : Function.Injective fun p : Field61 × Field61 => last (first 0 p.1) p.2 := by
    rintro ⟨d₁, e₁⟩ ⟨d₂, e₂⟩ heq
    have hlast₂ : ∀ x ∈ Finset.Icc 2 k,
        offset k (last (first 0 d₁) e₁) x = offset k (first 0 d₂) x + e₂ := by
      rw [show last (first 0 d₁) e₁ = last (first 0 d₂) e₂ from heq]
      exact hmoved' _ e₂
    obtain ⟨hd, he⟩ := moves_injective hk (hkn.trans_lt hn) (hmoved 0 d₁) (hmoved 0 d₂)
      (hmoved' _ e₁) hlast₂
    rw [hd, he]
  have hcard := Nat.card_le_card_of_injective _ (UInt64.toFin_injective.comp hinjective)
  rw [Nat.card_prod, Nat.card_zmod, Nat.card_fin] at hcard
  norm_num [fieldPrime, UInt64.size] at hcard

/-- **The index that the field reads as zero** has the key as its share. -/
theorem not_hides_of_fieldPrime_le (hk : 2 ≤ k) (hkn : k ≤ n) (hp : fieldPrime ≤ n)
    (hn : n < 2 ^ 64) : ¬ Hides k n := by
  intro h
  obtain ⟨I, hmemI, hI, hcard⟩ := Finset.exists_subsuperset_card_eq (n := k - 1)
    (Finset.singleton_subset_iff.2 (Finset.mem_Icc.2 ⟨by decide, hp⟩ : fieldPrime ∈ Finset.Icc 1 n))
    (by rw [Finset.card_singleton]; omega) (by rw [Nat.card_Icc]; omega)
  obtain ⟨shares, T, hsplit, hT, hTcard, hindex⟩ :=
    exists_shares hI hn (by omega) hkn 0 0
  obtain ⟨seed', shares', hsplit', hmem⟩ := h 0 1 0 shares T (by decide) (by decide) hsplit hT
    (hTcard.trans hcard)
  obtain ⟨s, hs, hsindex⟩ := hindex fieldPrime (Finset.singleton_subset_iff.1 hmemI)
  have hvalue := (cast_value_of_mem hsplit' (hmem s hs)).symm.trans
    (cast_value_of_mem hsplit (hT s hs))
  rw [eval_polynomial, eval_polynomial, hsindex, ZMod.natCast_self] at hvalue
  simp [offset] at hvalue

/-- **Fewer shares than the threshold tell nothing** precisely with threshold two. -/
theorem shares_hide (hk : 2 ≤ k) (hkn : k ≤ n) (hn : n < 2 ^ 64) :
    Hides k n ↔ k = 2 ∧ n < 2 ^ 61 - 1 := by
  have hprime : fieldPrime = 2 ^ 61 - 1 := by decide
  constructor
  · intro h
    have hp : n < fieldPrime := by
      by_contra hp
      exact not_hides_of_fieldPrime_le hk hkn (Nat.le_of_not_lt hp) hn h
    refine ⟨?_, hprime ▸ hp⟩
    by_contra hne
    exact not_hides_of_three_le (by omega) hkn hp h
  · rintro ⟨rfl, hp⟩
    exact hides_two hp

end Hiding

/-- The second of the shares of the key 7 is a share of the key 5, for some seed. -/
theorem secondShare_hides : ∃ seed shares,
    shamirSplit 5 2 3 seed = some shares ∧ threeShares[1] ∈ shares := by
  obtain ⟨seed, shares, hsplit, hmem⟩ := (shares_hide (by decide) (by decide) (by decide)).2
    ⟨rfl, by decide⟩ 7 5 1 threeShares {threeShares[1]} (by decide) (by decide) threeShares_split
    (by decide +kernel) rfl
  exact ⟨seed, shares, hsplit, hmem _ (Finset.mem_singleton_self _)⟩

/-! ## Shares that do not -/

def zeroShares : List ShamirShare :=
  (List.range' 1 3).map fun x => shareAt (coefficients 0 3 0) (UInt64.ofNat x)

theorem cast_value_three {n : ℕ} {seed : UInt64}
    (h : shamirSplit secret 3 n seed = some shares) {s : ShamirShare} (hs : s ∈ shares) :
    (s.value.toNat : Field61) = secret.toNat + (splitmix64 seed).toNat * s.index.toNat +
      (splitmix64 (splitmix64 seed)).toNat * s.index.toNat ^ 2 := by
  have hcoefficients : coefficients secret 3 seed =
      [secret.toNat % fieldPrime, (splitmix64 seed).toNat % fieldPrime,
        (splitmix64 (splitmix64 seed)).toNat % fieldPrime] := rfl
  rw [cast_value_of_mem h hs, polynomial, hcoefficients, List.map_cons, List.map_cons,
    List.map_cons, List.map_nil, eval_ofCoeffs_cons, eval_ofCoeffs_cons, eval_ofCoeffs_cons,
    eval_ofCoeffs_nil, ZMod.natCast_mod, ZMod.natCast_mod, ZMod.natCast_mod]
  ring

def firstTwo : Finset ShamirShare := {⟨1, 659642555515227178⟩, ⟨2, 26112508521715005⟩}

/-- **With threshold three, two shares tell something.** -/
theorem shares_tell : ¬ Hides 3 3 := by
  intro hides
  obtain ⟨seed, shares, hsplit, hmem⟩ := hides 0 1 0 zeroShares firstTwo
    (by decide) (by decide) rfl (by decide +kernel) (by decide +kernel)
  have h₁ : (659642555515227178 : Field61) = 1 + (splitmix64 seed).toNat * 1 +
      (splitmix64 (splitmix64 seed)).toNat * 1 ^ 2 :=
    cast_value_three hsplit (hmem ⟨1, 659642555515227178⟩ (by decide))
  have h₂ : (26112508521715005 : Field61) = 1 + (splitmix64 seed).toNat * 2 +
      (splitmix64 (splitmix64 seed)).toNat * 2 ^ 2 :=
    cast_value_three hsplit (hmem ⟨2, 26112508521715005⟩ (by decide))
  generalize splitmix64 seed = c at h₁ h₂
  have hp : (2305843009213693951 : Field61) = 0 := ZMod.natCast_self fieldPrime
  -- the two equations are solved with one half, which is 2 ^ 60
  have hnext : ((splitmix64 c).toNat : Field61) = (1659256707959324276 : ℕ) := by
    push_cast
    linear_combination 2 ^ 61 * h₁ - 2 ^ 60 * h₂ + (-646586301254369676 - (splitmix64 c).toNat) * hp
  have hfirst : (c.toNat : Field61) = (1306228856769596852 : ℕ) := by
    push_cast at hnext ⊢
    linear_combination -h₁ - hnext + -1 * hp
  have hc := (ZMod.natCast_eq_natCast_iff' _ _ _).1 hfirst
  obtain ⟨i, hi, hci⟩ : ∃ i < 8, c = UInt64.ofNat (1306228856769596852 + i * fieldPrime) := by
    have hlt := c.toNat_lt
    refine ⟨c.toNat / fieldPrime, ?_, ?_⟩
    · rw [fieldPrime] at hc ⊢
      omega
    · have hrest : c.toNat % fieldPrime = 1306228856769596852 := hc
      rw [← hrest, mul_comm, Nat.mod_add_div, UInt64.ofNat_toNat]
  have hnone : ∀ i < 8, (splitmix64 (UInt64.ofNat (1306228856769596852 + i * fieldPrime))).toNat %
      fieldPrime ≠ 1659256707959324276 % fieldPrime := by
    decide +kernel
  refine hnone i hi ?_
  rw [← hci]
  exact (ZMod.natCast_eq_natCast_iff' _ _ _).1 hnext

end Pillar.Recovery
