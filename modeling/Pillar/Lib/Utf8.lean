import Mathlib

/-!
# Text by byte offsets

A UTF-8 string as the list of its characters, and the offsets into its bytes by which a slice of it
is taken.
-/

namespace Lib.Utf8

abbrev Text := List Char

variable {s a b c t w : Text} {i j : ℕ} {p : Char → Bool}

def size (s : Text) : ℕ := (s.map Char.utf8Size).sum

@[simp] theorem size_nil : size [] = 0 := rfl

@[simp] theorem size_cons (x : Char) (s : Text) : size (x :: s) = x.utf8Size + size s := rfl

@[simp] theorem size_append (s t : Text) : size (s ++ t) = size s + size t := by
  simp [size]

/-! ## Slices -/

def splitAt : Text → ℕ → Option (Text × Text)
  | s, 0 => some ([], s)
  | [], _ + 1 => none
  | x :: s, i + 1 =>
    if x.utf8Size ≤ i + 1 then
      (splitAt s (i + 1 - x.utf8Size)).map fun parts => (x :: parts.1, parts.2)
    else none

theorem splitAt_size (a b : Text) : splitAt (a ++ b) (size a) = some (a, b) := by
  induction a with
  | nil => cases b <;> rfl
  | cons x a ih =>
    obtain ⟨n, hn⟩ : ∃ n, size (x :: a) = n + 1 :=
      Nat.exists_eq_succ_of_ne_zero (by have := x.utf8Size_pos; simp only [size_cons]; omega)
    have hrest : n + 1 - x.utf8Size = size a := by rw [← hn, size_cons, Nat.add_sub_cancel_left]
    have hle : x.utf8Size ≤ n + 1 := by rw [← hn, size_cons]; exact Nat.le_add_right _ _
    rw [List.cons_append, hn, splitAt, if_pos hle, hrest, ih]
    rfl

def sliceTo (s : Text) (j : ℕ) : Option Text := (splitAt s j).map Prod.fst

def sliceFrom (s : Text) (i : ℕ) : Option Text := (splitAt s i).map Prod.snd

def slice (s : Text) (i j : ℕ) : Option Text :=
  if i ≤ j then (sliceTo s j).bind fun t => sliceFrom t i else none

theorem sliceTo_size (a b : Text) : sliceTo (a ++ b) (size a) = some a := by
  rw [sliceTo, splitAt_size]
  rfl

theorem sliceFrom_size (a b : Text) : sliceFrom (a ++ b) (size a) = some b := by
  rw [sliceFrom, splitAt_size]
  rfl

theorem slice_eq_some (hi : i = size a) (hj : j = size a + size b) :
    slice (a ++ (b ++ c)) i j = some b := by
  subst hi hj
  rw [slice, if_pos (Nat.le_add_right _ _), ← List.append_assoc, ← size_append, sliceTo_size]
  exact sliceFrom_size a b

/-! ## Searching -/

def find (p : Char → Bool) : Text → Option ℕ
  | [] => none
  | x :: s => if p x then some 0 else (find p s).map (x.utf8Size + ·)

def rfind (p : Char → Bool) : Text → Option ℕ
  | [] => none
  | x :: s =>
    match rfind p s with
    | some i => some (x.utf8Size + i)
    | none => if p x then some 0 else none

def findText (w s : Text) : Option ℕ := (s.dropInfix? w).map fun parts => size parts.1

variable {x : Char}

theorem find_append (ha : ∀ y ∈ a, p y = false) (hx : p x = true) :
    find p (a ++ x :: b) = some (size a) := by
  induction a with
  | nil => exact if_pos hx
  | cons y a ih =>
    obtain ⟨hy, ha⟩ := List.forall_mem_cons.1 ha
    rw [List.cons_append, find, if_neg (by simp [hy]), ih ha]
    rfl

theorem find_eq_none_iff : find p s = none ↔ ∀ y ∈ s, p y = false := by
  induction s with
  | nil => simp [find]
  | cons x s ih =>
    rw [List.forall_mem_cons, ← ih, find]
    cases hx : p x <;> simp

theorem exists_of_find_eq_some (h : find p s = some i) :
    ∃ a x b, s = a ++ x :: b ∧ i = size a ∧ p x = true ∧ ∀ y ∈ a, p y = false := by
  induction s generalizing i with
  | nil => cases h
  | cons x s ih =>
    rw [find] at h
    split_ifs at h with hx
    · exact ⟨[], x, s, rfl, (Option.some.inj h).symm, hx, by simp⟩
    · obtain ⟨i', hi', rfl⟩ := Option.map_eq_some_iff.1 h
      obtain ⟨a, y, b, rfl, rfl, hy, ha⟩ := ih hi'
      exact ⟨x :: a, y, b, rfl, rfl, hy, List.forall_mem_cons.2 ⟨by simpa using hx, ha⟩⟩

theorem rfind_eq_none_iff : rfind p s = none ↔ ∀ y ∈ s, p y = false := by
  induction s with
  | nil => simp [rfind]
  | cons x s ih =>
    rw [List.forall_mem_cons, ← ih, rfind]
    cases rfind p s with
    | some i | none => simp

theorem rfind_append (hx : p x = true) (hb : ∀ y ∈ b, p y = false) :
    rfind p (a ++ x :: b) = some (size a) := by
  induction a with
  | nil => rw [List.nil_append, rfind, rfind_eq_none_iff.2 hb]; exact if_pos hx
  | cons y a ih => rw [List.cons_append, rfind, ih]; rfl

theorem exists_of_rfind_eq_some (h : rfind p s = some i) :
    ∃ a x b, s = a ++ x :: b ∧ i = size a ∧ p x = true ∧ ∀ y ∈ b, p y = false := by
  induction s generalizing i with
  | nil => cases h
  | cons x s ih =>
    rw [rfind] at h
    cases hs : rfind p s with
    | some i' =>
      rw [hs] at h
      obtain rfl := Option.some.inj h
      obtain ⟨a, y, b, rfl, rfl, hy, hb⟩ := ih hs
      exact ⟨x :: a, y, b, rfl, rfl, hy, hb⟩
    | none =>
      rw [hs] at h
      by_cases hx : p x = true
      · rw [if_pos hx] at h
        exact ⟨[], x, s, rfl, (Option.some.inj h).symm, hx, rfind_eq_none_iff.1 hs⟩
      · rw [if_neg hx] at h
        cases h

/-! ## Occurrences of a text -/

theorem eq_of_dropInfix? (h : s.dropInfix? w = some (a, b)) : s = a ++ (w ++ b) := by
  obtain ⟨⟨w', rfl, hw⟩, -⟩ := List.dropInfix?_eq_some_iff.1 h
  rw [eq_of_beq hw, List.append_assoc]

theorem dropPrefix?_append (w b : Text) : (w ++ b).dropPrefix? w = some b :=
  List.dropPrefix?_eq_some_iff.2 ⟨w, rfl, by simp⟩

/-! ## White space -/

def trim (ws : Char → Bool) (s : Text) : Text := (s.dropWhile ws).rdropWhile ws

end Lib.Utf8
