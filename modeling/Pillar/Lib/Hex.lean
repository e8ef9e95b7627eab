import Mathlib

/-!
# Lowercase hex

Bytes written as two lowercase hex digits each.
-/

namespace Lib.Hex

def digit (n : ℕ) : Char := (("0123456789abcdef".toList)[n]?).getD '0'

def hexByte (b : UInt8) : List Char := [digit (b.toNat / 16), digit (b.toNat % 16)]

def hex (bytes : List UInt8) : List Char := bytes.flatMap hexByte

theorem digit_inj : ∀ m < 16, ∀ n < 16, digit m = digit n → m = n := by decide

theorem hexByte_injective : Function.Injective hexByte := by
  intro b c h
  have hb := b.toNat_lt
  have hc := c.toNat_lt
  simp only [hexByte, List.cons.injEq, and_true] at h
  have hhi := digit_inj _ (by omega) _ (by omega) h.1
  have hlo := digit_inj _ (by omega) _ (by omega) h.2
  exact UInt8.toNat_inj.1 (by omega)

theorem hex_injective : Function.Injective hex := by
  intro a b h
  induction a generalizing b with
  | nil =>
    cases b with
    | nil => rfl
    | cons c b => simp [hex, hexByte] at h
  | cons c a ih =>
    cases b with
    | nil => simp [hex, hexByte] at h
    | cons d b =>
      have h' : hexByte c ++ hex a = hexByte d ++ hex b := h
      obtain ⟨hcd, hab⟩ := List.append_inj h' rfl
      rw [hexByte_injective hcd, ih hab]

theorem exists_digit_of_mem_hex {c : Char} {bytes : List UInt8} (h : c ∈ hex bytes) :
    ∃ n < 16, digit n = c := by
  obtain ⟨b, -, hb⟩ := List.mem_flatMap.1 h
  have hlt := b.toNat_lt
  simp only [hexByte, List.mem_cons, List.not_mem_nil, or_false] at hb
  rcases hb with rfl | rfl
  · exact ⟨_, by omega, rfl⟩
  · exact ⟨_, by omega, rfl⟩

theorem not_mem_hex {c : Char} (hc : ∀ n < 16, digit n ≠ c) (bytes : List UInt8) :
    c ∉ hex bytes := by
  intro h
  obtain ⟨n, hn, hdigit⟩ := exists_digit_of_mem_hex h
  exact hc n hn hdigit

theorem dot_not_mem_hex (bytes : List UInt8) : '.' ∉ hex bytes := not_mem_hex (by decide) bytes

end Lib.Hex
