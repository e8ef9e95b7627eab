import Mathlib

/-!
# Text made of delimited fields

Fields joined by a separator are read back by splitting at it; one field may hold the separator
itself, if what comes after it is split off at the last.
-/

namespace Lib.Delimited

variable {α : Type*} [DecidableEq α] (sep : α)

def splitFirst (cs : List α) : List α × List α :=
  (cs.takeWhile (· ≠ sep), (cs.dropWhile (· ≠ sep)).drop 1)

def splitLast (cs : List α) : List α × List α :=
  let (after, before) := splitFirst sep cs.reverse
  (before.reverse, after.reverse)

variable {sep}

theorem splitFirst_append {field : List α} (h : sep ∉ field) (rest : List α) :
    splitFirst sep (field ++ sep :: rest) = (field, rest) := by
  have hfield : ∀ c ∈ field, decide (c ≠ sep) = true := by
    intro c hc
    rw [decide_eq_true_eq]
    rintro rfl
    exact h hc
  rw [splitFirst, List.takeWhile_append_of_pos hfield, List.dropWhile_append_of_pos hfield]
  simp

theorem append_sep_inj {a b s t : List α} (ha : sep ∉ a) (hb : sep ∉ b)
    (h : a ++ sep :: s = b ++ sep :: t) : a = b ∧ s = t := by
  have hsplit := congrArg (splitFirst sep) h
  rw [splitFirst_append ha, splitFirst_append hb] at hsplit
  exact Prod.mk.inj hsplit

theorem splitLast_append (rest : List α) {field : List α} (h : sep ∉ field) :
    splitLast sep (rest ++ sep :: field) = (rest, field) := by
  have hrev : (rest ++ sep :: field).reverse = field.reverse ++ sep :: rest.reverse := by simp
  rw [splitLast, hrev, splitFirst_append (by simpa using h)]
  simp

/-! ## Decimal fields -/

def number (cs : List Char) : Option ℕ :=
  if cs ≠ [] ∧ ∀ c ∈ cs, c.isDigit = true then some (Nat.ofDigitChars 10 cs 0) else none

theorem isDigit_of_mem_decimal {n : ℕ} {c : Char} (hc : c ∈ Nat.toDigits 10 n) :
    c.isDigit = true :=
  Nat.isDigit_of_mem_toDigits (by decide) (by decide) hc

@[simp] theorem number_decimal (n : ℕ) : number (Nat.toDigits 10 n) = some n := by
  rw [number, if_pos ⟨Nat.toDigits_ne_nil, fun c => isDigit_of_mem_decimal⟩,
    Nat.ofDigitChars_ten_toDigits]

theorem separator_not_mem_decimal {c : Char} (h : c.isDigit = false) (n : ℕ) :
    c ∉ Nat.toDigits 10 n := by
  intro hc
  rw [isDigit_of_mem_decimal hc] at h
  cases h

end Lib.Delimited
