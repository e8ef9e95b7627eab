import Mathlib

/-!
# One block restored from the others

Blocks are combined entry by entry with an operation that undoes itself, such as exclusive or.

* `foldl_combine_perm` — **one block from the others**, whatever order they come in.
-/

namespace Lib.Parity

variable {α : Type*} (f : α → α → α)

def combine : List α → List α → List α
  | a :: as, b :: bs => f a b :: combine as bs
  | as, [] => as
  | [], _ => []

@[simp] theorem combine_nil_right (as : List α) : combine f as [] = as := by
  cases as <;> rfl

@[simp] theorem combine_nil_left (bs : List α) : combine f [] bs = [] := by
  cases bs <;> rfl

variable {f}

theorem combine_right_comm (hf : ∀ a b c, f (f a b) c = f (f a c) b) (as bs cs : List α) :
    combine f (combine f as bs) cs = combine f (combine f as cs) bs := by
  induction as generalizing bs cs with
  | nil => simp
  | cons a as ih =>
    cases bs with
    | nil => simp
    | cons b bs =>
      cases cs with
      | nil => simp
      | cons c cs => simp [combine, ih, hf a b c]

theorem combine_cancel (hcancel : ∀ a b, f (f a b) b = a) (as bs : List α) :
    combine f (combine f as bs) bs = as := by
  induction as generalizing bs with
  | nil => simp
  | cons a as ih =>
    cases bs with
    | nil => simp
    | cons b bs => simp [combine, ih, hcancel]

theorem combine_replicate {e : α} (he : ∀ b, f e b = b) (bs : List α) :
    combine f (List.replicate bs.length e) bs = bs := by
  induction bs with
  | nil => rfl
  | cons b bs ih => rw [List.length_cons, List.replicate_succ, combine, he, ih]

theorem foldl_combine_right_comm (hf : ∀ a b c, f (f a b) c = f (f a c) b) (as bs : List α)
    (l : List (List α)) :
    l.foldl (combine f) (combine f as bs) = combine f (l.foldl (combine f) as) bs := by
  induction l generalizing as with
  | nil => rfl
  | cons cs l ih => rw [List.foldl_cons, combine_right_comm hf, ih, List.foldl_cons]

theorem foldl_combine_cancel (hf : ∀ a b c, f (f a b) c = f (f a c) b)
    (hcancel : ∀ a b, f (f a b) b = a) (as : List α) (l : List (List α)) :
    l.foldl (combine f) (l.foldl (combine f) as) = as := by
  induction l generalizing as with
  | nil => rfl
  | cons bs l ih =>
    rw [List.foldl_cons, List.foldl_cons, foldl_combine_right_comm hf, ih, combine_cancel hcancel]

/-- **One block from the others.** -/
theorem foldl_combine_perm (hf : ∀ a b c, f (f a b) c = f (f a c) b)
    (hcancel : ∀ a b, f (f a b) b = a) {e : α} (he : ∀ b, f e b = b) {d : List α}
    {all rest : List (List α)} (hperm : all.Perm (d :: rest)) :
    rest.foldl (combine f) (all.foldl (combine f) (List.replicate d.length e)) = d := by
  have hcomm : RightCommutative (combine f) := ⟨combine_right_comm hf⟩
  rw [hperm.foldl_eq, List.foldl_cons, combine_replicate he, foldl_combine_cancel hf hcancel]

end Lib.Parity
