import Mathlib

/-!
# A list cut into blocks

A byte string is cut into blocks of one size, the last one possibly shorter, and put together again.

* `flatMap_block` — **the blocks make up the list.**
-/

namespace Lib.Blocks

variable {α : Type*} {l : List α} {n i c : ℕ}

def divCeil (a b : ℕ) : ℕ := if 0 < a % b then a / b + 1 else a / b

theorem lt_divCeil_iff {a b : ℕ} (hb : 0 < b) : i < divCeil a b ↔ i * b < a := by
  have hdiv := Nat.div_add_mod a b
  have hmod := Nat.mod_lt a hb
  rw [divCeil]
  split_ifs with h
  · rw [Nat.lt_succ_iff]
    constructor
    · intro hi
      have := Nat.mul_le_mul_right b hi
      rw [Nat.mul_comm (a / b)] at this
      omega
    · intro hi
      exact (Nat.le_div_iff_mul_le hb).2 hi.le
  · rw [Nat.lt_div_iff_mul_lt_of_dvd hb.ne' (Nat.dvd_of_mod_eq_zero (by omega))]

theorem le_divCeil_mul (a : ℕ) {b : ℕ} (hb : 0 < b) : a ≤ divCeil a b * b :=
  not_lt.1 fun h => absurd ((lt_divCeil_iff hb).2 h) (lt_irrefl _)

theorem divCeil_pos {a b : ℕ} (ha : 0 < a) (hb : 0 < b) : 0 < divCeil a b :=
  (lt_divCeil_iff hb).2 (by omega)

def block (n : ℕ) (l : List α) (i : ℕ) : List α := (l.drop (i * n)).take n

@[simp] theorem length_block : (block n l i).length = min n (l.length - i * n) := by
  simp [block]

theorem take_succ_mul (n : ℕ) (l : List α) (i : ℕ) :
    l.take ((i + 1) * n) = l.take (i * n) ++ block n l i := by
  rw [Nat.succ_mul, List.take_add]
  rfl

/-- **The blocks make up the list.** -/
theorem flatMap_block (n : ℕ) (l : List α) (c : ℕ) :
    (List.range c).flatMap (block n l) = l.take (c * n) := by
  induction c with
  | zero => simp
  | succ c ih => rw [List.range_succ, List.flatMap_append, ih, take_succ_mul, List.flatMap_singleton]

theorem drop_take_eq_block (n : ℕ) (l : List α) (i : ℕ) :
    (l.take (min (i * n + n) l.length)).drop (i * n) = block n l i := by
  rw [List.drop_take, block, List.take_eq_take_iff]
  simp only [List.length_drop]
  omega

theorem zipIdx_map_range (f : ℕ → α) (c : ℕ) :
    ((List.range c).map f).zipIdx = (List.range c).map fun i => (f i, i) := by
  refine List.ext_getElem? fun i => ?_
  by_cases hi : i < c
  · simp [List.getElem?_range hi]
  · simp [hi]

/-! ## Writing blocks at their offsets -/

def writeAt (out : List α) (offset : ℕ) (entries : List α) : List α :=
  out.take offset ++ entries ++ out.drop (offset + entries.length)

theorem writeAt_block {out : List α} (hout : out.length = l.length) (n i : ℕ) :
    writeAt (l.take (i * n) ++ out.drop (i * n)) (i * n) (block n l i) =
      l.take ((i + 1) * n) ++ out.drop ((i + 1) * n) := by
  rw [writeAt, take_succ_mul]
  congr 1
  · rw [List.take_append, List.take_take, min_self, List.length_take]
    by_cases h : i * n ≤ l.length
    · simp [min_eq_left h]
    · have hnil : out.drop (i * n) = [] := List.drop_eq_nil_of_le (by omega)
      simp [hnil]
  · rw [List.drop_append, List.drop_eq_nil_of_le (by simp), List.nil_append, List.drop_drop,
      length_block, List.length_take, Nat.succ_mul]
    by_cases h : i * n + n ≤ l.length
    · congr 1
      omega
    · rw [List.drop_eq_nil_of_le (by omega), List.drop_eq_nil_of_le (by omega)]

theorem foldl_writeAt_block {out : List α} (hout : out.length = l.length) (n c : ℕ) :
    (List.range c).foldl (fun out i => writeAt out (i * n) (block n l i)) out =
      l.take (c * n) ++ out.drop (c * n) := by
  induction c with
  | zero => simp
  | succ c ih => rw [List.range_succ, List.foldl_append, ih, List.foldl_cons, List.foldl_nil,
      writeAt_block hout]

/-! ## Blocks of the full size -/

def fill (a : α) (n : ℕ) (l : List α) : List α := l ++ List.replicate (n - l.length) a

@[simp] theorem length_fill (a : α) (n : ℕ) (l : List α) :
    (fill a n l).length = max n l.length := by
  simp [fill]
  omega

/-- **Filled blocks make up the list.** -/
theorem flatMap_fill_block (a : α) (n : ℕ) (l : List α) (c : ℕ) :
    (List.range c).flatMap (fun i => fill a n (block n l i)) =
      l.take (c * n) ++ List.replicate (c * n - l.length) a := by
  induction c with
  | zero => simp
  | succ c ih =>
    rw [List.range_succ, List.flatMap_append, ih, List.flatMap_singleton, take_succ_mul, fill]
    by_cases h : c * n ≤ l.length
    · simp [Nat.sub_eq_zero_of_le h, Nat.succ_mul]
      omega
    · have hnil : block n l c = [] := by
        rw [← List.length_eq_zero_iff, length_block]
        omega
      simp only [hnil, List.nil_append, List.append_nil, List.append_assoc,
        List.replicate_append_replicate, List.length_nil, Nat.succ_mul]
      congr 2
      omega

/-! ## Blocks that have been received -/

def slots (n : ℕ) (f : ℕ → α) (p : ℕ → Prop) [DecidablePred p] : List (Option α) :=
  (List.range n).map fun i => if p i then some (f i) else none

variable {f : ℕ → α} {p q : ℕ → Prop} [DecidablePred p] [DecidablePred q]

theorem slots_congr (h : ∀ i < n, p i ↔ q i) : slots n f p = slots n f q :=
  List.map_congr_left fun i hi => by simp [h i (List.mem_range.1 hi)]

theorem slots_false (hp : ∀ i < n, ¬ p i) : slots n f p = List.replicate n none := by
  refine List.eq_replicate_iff.2 ⟨by simp [slots], fun x hx => ?_⟩
  obtain ⟨i, hi, rfl⟩ := List.mem_map.1 hx
  exact if_neg (hp i (List.mem_range.1 hi))

theorem slots_set (i : ℕ) :
    (slots n f p).set i (some (f i)) = slots n f fun j => j = i ∨ p j := by
  refine List.ext_getElem? fun j => ?_
  rw [List.getElem?_set, slots, slots, List.getElem?_map, List.getElem?_map]
  by_cases hj : j < n
  · by_cases hij : i = j
    · subst hij
      simp [hj]
    · simp [List.getElem?_range hj, hij, Ne.symm hij]
  · simp [hj]
    omega

theorem countP_isNone_slots : (slots n f p).countP Option.isNone =
    (List.range n).countP fun i => ¬ p i := by
  rw [slots, List.countP_map]
  refine List.countP_congr fun i _ => ?_
  by_cases hi : p i <;> simp [hi]

theorem countP_isSome_slots : (slots n f p).countP Option.isSome =
    (List.range n).countP fun i => p i := by
  rw [slots, List.countP_map]
  refine List.countP_congr fun i _ => ?_
  by_cases hi : p i <;> simp [hi]

theorem reduceOption_slots : (slots n f p).reduceOption = ((List.range n).filter (p ·)).map f := by
  rw [slots]
  induction List.range n with
  | nil => rfl
  | cons i l ih => by_cases hi : p i <;> simp [hi, ih]

end Lib.Blocks
