import Mathlib

/-!
# Scanning at the top level

A text is read with a counter of open brackets and a flag for quotes. It is split at a separator,
or cut at a keyword, only at the top level: outside brackets and quotes.
-/

namespace Lib.TopLevel

variable {α β : Type*}

/-! ## Levels -/

structure Marks (α : Type*) where
  quotes : α → Bool
  opens : α → Bool
  closes : α → Bool

@[ext] structure Level where
  depth : Int32
  quoted : Bool
  deriving DecidableEq

def top : Level := ⟨0, false⟩

namespace Marks

variable (M : Marks α)

def plain (x : α) : Bool := !M.quotes x && !M.opens x && !M.closes x

def next (l : Level) (x : α) : Level :=
  if M.quotes x then ⟨l.depth, !l.quoted⟩
  else if M.opens x && !l.quoted then ⟨l.depth + 1, l.quoted⟩
  else if M.closes x && !l.quoted then ⟨l.depth - 1, l.quoted⟩
  else l

variable {M} {l : Level} {x : α} {d : Int32}

theorem next_of_plain (h : M.plain x = true) : M.next l x = l := by
  simp only [plain, Bool.and_eq_true, Bool.not_eq_true'] at h
  simp [next, h.1.1, h.1.2, h.2]

theorem next_of_quoted (h : M.quotes x = false) : M.next ⟨d, true⟩ x = ⟨d, true⟩ := by
  simp [next, h]

end Marks

variable (M : Marks α)

/-! ## Splitting at separators -/

section

variable (sep : α)

def Separates (l : Level) (x : α) : Prop := M.plain x = true ∧ x = sep ∧ l = top

instance [DecidableEq α] (l : Level) (x : α) : Decidable (Separates M sep l x) :=
  inferInstanceAs (Decidable (_ ∧ _))

def splits [DecidableEq α] (l : Level) : List α → List (List α)
  | [] => [[]]
  | x :: s =>
    if Separates M sep l x then [] :: splits l s
    else (splits (M.next l x) s).modifyHead (x :: ·)

end

/-! ## Cutting at keywords -/

section

variable (ws : α → Bool) (starts : List α → Option β)

def cut (l : Level) (afterWs : Bool) : List α → List α × Option β
  | [] => ([], none)
  | x :: s =>
    match (if M.plain x = true ∧ l = top ∧ afterWs = true then starts (x :: s) else none) with
    | some found => ([], some found)
    | none => ((cut (M.next l x) (ws x) s).map (x :: ·) id)

variable {M ws starts} {l : Level} {b : Bool} {x : α} {s t : List α}

def prepend (s : List α) (r : List α × Option β) : List α × Option β := (s ++ r.1, r.2)

@[simp] theorem prepend_prepend (s t : List α) (r : List α × Option β) :
    prepend s (prepend t r) = prepend (s ++ t) r := by
  simp [prepend]

theorem cut_cons_of_none
    (h : M.plain x = true → l = top → b = true → starts (x :: s) = none) :
    cut M ws starts l b (x :: s) = prepend [x] (cut M ws starts (M.next l x) (ws x) s) := by
  rw [cut]
  split
  · rename_i found hfound
    split_ifs at hfound with hcheck
    rw [h hcheck.1 hcheck.2.1 hcheck.2.2] at hfound
    cases hfound
  · rfl

/-- **A keyword at the start of a word stops.** -/
theorem cut_keyword {found : β} (hplain : M.plain x = true)
    (hstart : starts (x :: t) = some found) :
    cut M ws starts top true (x :: t) = ([], some found) := by
  rw [cut, if_pos ⟨hplain, rfl, rfl⟩, hstart]

end

end Lib.TopLevel
