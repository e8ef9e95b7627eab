import Mathlib

/-!
# Stop and wait

A list is handed over one item at a time: the next item is taken up when the one before it has been
acknowledged.
-/

namespace Lib.StopAndWait

@[ext]
structure Exchange (α : Type*) where
  sent : List α
  /-- How many of them have been acknowledged, as far as the sender knows. -/
  acked : ℕ
  taken : ℕ
  acked_le : acked ≤ taken
  taken_le : taken ≤ sent.length
  length_le : sent.length ≤ acked + 1

namespace Exchange

variable {α : Type*}

def new : Exchange α := ⟨[], 0, 0, Nat.le_refl 0, Nat.le_refl 0, Nat.zero_le 1⟩

variable (x : Exchange α)

/-- All has been acknowledged, and one more item is sent. -/
def offer (h : x.sent.length = x.acked) (a : α) : Exchange α where
  sent := x.sent ++ [a]
  acked := x.acked
  taken := x.taken
  acked_le := x.acked_le
  taken_le := x.taken_le.trans (List.length_append ▸ Nat.le_add_right _ _)
  length_le := by simp [h]

def take (h : x.taken < x.sent.length) : Exchange α where
  sent := x.sent
  acked := x.acked
  taken := x.taken + 1
  acked_le := Nat.le_succ_of_le x.acked_le
  taken_le := h
  length_le := x.length_le

def acknowledge (h : x.acked < x.taken) : Exchange α where
  sent := x.sent
  acked := x.acked + 1
  taken := x.taken
  acked_le := h
  taken_le := x.taken_le
  length_le := Nat.le_succ_of_le x.length_le

variable {x}

/-- **The receiver is behind by one item at most.** -/
theorem le_taken {i : ℕ} (h : i < x.sent.length) : i ≤ x.taken :=
  (Nat.lt_succ_iff.1 (h.trans_le x.length_le)).trans x.acked_le

theorem sent_drop_acked {a : α} (h : x.sent.drop x.acked = [a]) :
    x.sent[x.acked]? = some a := by
  rw [← List.head?_drop, h]
  rfl

theorem take_succ_acked {a : α} (h : x.sent.drop x.acked = [a]) :
    x.sent.take (x.acked + 1) = x.sent.take x.acked ++ [a] := by
  rw [List.take_add_one, sent_drop_acked h]
  rfl

end Exchange

end Lib.StopAndWait
