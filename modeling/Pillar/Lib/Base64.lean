import Mathlib

/-!
# Base64 for URLs, without padding

Three bytes are written as four characters of six bits each; one or two bytes that remain are
written as two or three.
-/

namespace Lib.Base64

def digit (n : ℕ) : Char :=
  (("ABCDEFGHIJKLMNOPQRSTUVWXYZabcdefghijklmnopqrstuvwxyz0123456789-_".toList)[n]?).getD 'A'

def sextets : List UInt8 → List ℕ
  | [] => []
  | [a] => [a.toNat / 4, a.toNat % 4 * 16]
  | [a, b] => [a.toNat / 4, a.toNat % 4 * 16 + b.toNat / 16, b.toNat % 16 * 4]
  | a :: b :: c :: rest =>
    a.toNat / 4 :: (a.toNat % 4 * 16 + b.toNat / 16) :: (b.toNat % 16 * 4 + c.toNat / 64) ::
      c.toNat % 64 :: sextets rest

def encode (bytes : List UInt8) : String := String.ofList ((sextets bytes).map digit)

theorem digit_inj : ∀ m < 64, ∀ n < 64, digit m = digit n → m = n := by decide +kernel

theorem lt_of_mem_sextets {bytes : List UInt8} {n : ℕ} (h : n ∈ sextets bytes) : n < 64 := by
  induction bytes using sextets.induct with
  | case1 => simp [sextets] at h
  | case2 a =>
    have ha := a.toNat_lt
    simp only [sextets, List.mem_cons, List.not_mem_nil, or_false] at h
    omega
  | case3 a b =>
    have ha := a.toNat_lt
    have hb := b.toNat_lt
    simp only [sextets, List.mem_cons, List.not_mem_nil, or_false] at h
    omega
  | case4 a b c rest ih =>
    have ha := a.toNat_lt
    have hb := b.toNat_lt
    have hc := c.toNat_lt
    simp only [sextets, List.mem_cons] at h
    rcases h with h | h | h | h | h
    · omega
    · omega
    · omega
    · omega
    · exact ih h

theorem sextets_injective : Function.Injective sextets := by
  intro x y h
  induction x using sextets.induct generalizing y with
  | case1 =>
    rcases y with - | ⟨a', - | ⟨b', - | ⟨c', rest'⟩⟩⟩
    · rfl
    all_goals simp [sextets] at h
  | case2 a =>
    rcases y with - | ⟨a', - | ⟨b', - | ⟨c', rest'⟩⟩⟩
    · simp [sextets] at h
    · simp only [sextets, List.cons.injEq, and_true] at h
      rw [UInt8.toNat_inj.1 (by omega : a.toNat = a'.toNat)]
    all_goals simp [sextets] at h
  | case3 a b =>
    rcases y with - | ⟨a', - | ⟨b', - | ⟨c', rest'⟩⟩⟩
    · simp [sextets] at h
    · simp [sextets] at h
    · have hb := b.toNat_lt
      have hb' := b'.toNat_lt
      simp only [sextets, List.cons.injEq, and_true] at h
      rw [UInt8.toNat_inj.1 (by omega : a.toNat = a'.toNat),
        UInt8.toNat_inj.1 (by omega : b.toNat = b'.toNat)]
    · simp [sextets] at h
  | case4 a b c rest ih =>
    rcases y with - | ⟨a', - | ⟨b', - | ⟨c', rest'⟩⟩⟩
    · simp [sextets] at h
    · simp [sextets] at h
    · simp [sextets] at h
    · have hb := b.toNat_lt
      have hb' := b'.toNat_lt
      have hc := c.toNat_lt
      have hc' := c'.toNat_lt
      simp only [sextets, List.cons.injEq] at h
      obtain ⟨h₁, h₂, h₃, h₄, hrest⟩ := h
      rw [UInt8.toNat_inj.1 (by omega : a.toNat = a'.toNat),
        UInt8.toNat_inj.1 (by omega : b.toNat = b'.toNat),
        UInt8.toNat_inj.1 (by omega : c.toNat = c'.toNat), ih hrest]

theorem map_digit_inj {l l' : List ℕ} (hl : ∀ n ∈ l, n < 64) (hl' : ∀ n ∈ l', n < 64)
    (h : l.map digit = l'.map digit) : l = l' := by
  induction l generalizing l' with
  | nil => exact (List.map_eq_nil_iff.1 h.symm).symm
  | cons m l ih =>
    cases l' with
    | nil => simp at h
    | cons n l' =>
      simp only [List.map_cons, List.cons.injEq] at h
      rw [digit_inj m (hl m List.mem_cons_self) n (hl' n List.mem_cons_self) h.1,
        ih (fun k hk => hl k (List.mem_cons_of_mem m hk))
          (fun k hk => hl' k (List.mem_cons_of_mem n hk)) h.2]

theorem encode_injective : Function.Injective encode := by
  intro x y h
  exact sextets_injective (map_digit_inj (fun _ hn => lt_of_mem_sextets hn)
    (fun _ hn => lt_of_mem_sextets hn) (String.ofList_inj.1 h))

example : encode [77, 97, 110, 255] = "TWFu_w" := by decide +kernel

end Lib.Base64
