import Mathlib

/-!
# A ledger shared by several owners

The entries of several owners stand in one list, and the operations change or drop the first entry
that meets a condition.

* `prune_append` — **what pruning leaves**: when the entries that count stand
  first, the last `cap` of them.
-/

namespace Lib.SharedLedger

variable {α : Type*} {p q : α → Bool} {f : α → α} {l : List α} {a : α} {cap : ℕ}

/-! ## Changing the first entry -/

def modifyFirst (p : α → Bool) (f : α → α) (l : List α) : Option (List α) :=
  (l.findIdx? p).map fun i => l.modify i f

theorem modifyFirst_eq_none_iff : modifyFirst p f l = none ↔ ∀ a ∈ l, p a = false := by
  simp [modifyFirst]

@[simp] theorem modifyFirst_cons_of_pos (ha : p a = true) :
    modifyFirst p f (a :: l) = some (f a :: l) := by
  simp [modifyFirst, List.findIdx?_cons, ha]

@[simp] theorem modifyFirst_cons_of_neg (ha : p a = false) :
    modifyFirst p f (a :: l) = (modifyFirst p f l).map (a :: ·) := by
  simp [modifyFirst, List.findIdx?_cons, ha, Function.comp_def]

theorem modifyFirst_append {t r : List α} (ht : ∀ b ∈ t, p b = false) (ha : p a = true) :
    modifyFirst p f (t ++ a :: r) = some (t ++ f a :: r) := by
  induction t with
  | nil => simp [ha]
  | cons b t ih =>
    rw [List.cons_append, modifyFirst_cons_of_neg (ht b List.mem_cons_self),
      ih fun c hc => ht c (List.mem_cons_of_mem _ hc)]
    rfl

theorem modifyFirst_eq_some_iff {l' : List α} :
    modifyFirst p f l = some l' ↔ ∃ t a r, l = t ++ a :: r ∧ (∀ b ∈ t, p b = false) ∧
      p a = true ∧ l' = t ++ f a :: r := by
  constructor
  · intro h
    induction l generalizing l' with
    | nil => simp [modifyFirst] at h
    | cons b l ih =>
      cases hb : p b with
      | true =>
        rw [modifyFirst_cons_of_pos hb] at h
        exact ⟨[], b, l, rfl, by simp, hb, (Option.some.inj h).symm⟩
      | false =>
        rw [modifyFirst_cons_of_neg hb, Option.map_eq_some_iff] at h
        obtain ⟨m, hm, rfl⟩ := h
        obtain ⟨t, a, r, rfl, ht, ha, rfl⟩ := ih hm
        exact ⟨b :: t, a, r, rfl, List.forall_mem_cons.2 ⟨hb, ht⟩, ha, rfl⟩
  · rintro ⟨t, a, r, rfl, ht, ha, rfl⟩
    exact modifyFirst_append ht ha

/-! ## Dropping the oldest entries -/

/-- Drop the first entry that counts while more than `cap` are left, at most `fuel` times. -/
def pruneLoop (p : α → Bool) (cap : ℕ) : ℕ → List α → List α
  | 0, l => l
  | fuel + 1, l => if l.countP p ≤ cap then l else pruneLoop p cap fuel (l.eraseP p)

/-- Drop the first entry that counts until at most `cap` are left. -/
def prune (p : α → Bool) (cap : ℕ) (l : List α) : List α := pruneLoop p cap l.length l

theorem countP_eraseP (p : α → Bool) (l : List α) : (l.eraseP p).countP p = l.countP p - 1 := by
  induction l with
  | nil => rfl
  | cons a l ih =>
    cases ha : p a with
    | true => simp [ha]
    | false => simp [ha, ih]

theorem pruneLoop_eq {fuel : ℕ} (h : l.countP p ≤ fuel) :
    pruneLoop p cap fuel l = (List.eraseP p)^[l.countP p - cap] l := by
  induction fuel generalizing l with
  | zero => simp [pruneLoop, Nat.le_zero.1 h]
  | succ fuel ih =>
    rw [pruneLoop]
    split_ifs with hcap
    · rw [Nat.sub_eq_zero_of_le hcap]
      rfl
    · have hcount := countP_eraseP p l
      rw [ih (by omega), hcount, ← Function.iterate_succ_apply]
      congr 2
      omega

theorem prune_eq (p : α → Bool) (cap : ℕ) (l : List α) :
    prune p cap l = (List.eraseP p)^[l.countP p - cap] l :=
  pruneLoop_eq List.countP_le_length

theorem prune_sublist (p : α → Bool) (cap : ℕ) (l : List α) : (prune p cap l).Sublist l := by
  rw [prune_eq]
  induction l.countP p - cap with
  | zero => exact .refl _
  | succ n ih =>
    rw [Function.iterate_succ_apply']
    exact List.eraseP_sublist.trans ih

theorem iterate_eraseP_append {t r : List α} (ht : ∀ a ∈ t, p a = true) {n : ℕ}
    (hn : n ≤ t.length) : (List.eraseP p)^[n] (t ++ r) = t.drop n ++ r := by
  induction n generalizing t with
  | zero => rfl
  | succ n ih =>
    cases t with
    | nil => simp at hn
    | cons a t =>
      rw [Function.iterate_succ_apply, List.cons_append,
        List.eraseP_cons_of_pos (ht a List.mem_cons_self),
        ih (fun b hb => ht b (List.mem_cons_of_mem _ hb)) (by simpa using hn), List.drop_succ_cons]

/-- **What pruning leaves.** -/
theorem prune_append {t r : List α} (ht : ∀ a ∈ t, p a = true) (hr : ∀ a ∈ r, p a = false) :
    prune p cap (t ++ r) = t.rtake cap ++ r := by
  have hcount : (t ++ r).countP p = t.length := by
    rw [List.countP_append, List.countP_eq_length.2 ht, List.countP_eq_zero.2 (by simpa using hr),
      Nat.add_zero]
  rw [prune_eq, hcount, iterate_eraseP_append ht (Nat.sub_le _ _), List.rtake]

theorem rtake_rtake_append (cap : ℕ) (l m : List α) :
    (l.rtake cap ++ m).rtake cap = (l ++ m).rtake cap := by
  simp only [List.rtake, List.drop_append, List.length_append, List.length_drop, List.drop_drop]
  congr 2 <;> omega

/-! ## The entries of one owner -/

theorem filter_eraseP (hpq : ∀ a, p a = true → q a = true) (l : List α) :
    (l.eraseP p).filter q = (l.filter q).eraseP p := by
  induction l with
  | nil => rfl
  | cons a l ih =>
    cases ha : p a with
    | true => simp [ha, hpq a ha]
    | false =>
      rw [List.eraseP_cons_of_neg (by simp [ha])]
      cases hqa : q a with
      | true => simp [ha, hqa, ih]
      | false => simp [hqa, ih]

theorem filter_eraseP_of_disjoint (hpq : ∀ a, p a = true → q a = false) (l : List α) :
    (l.eraseP p).filter q = l.filter q := by
  induction l with
  | nil => rfl
  | cons a l ih =>
    cases ha : p a with
    | true => simp [ha, hpq a ha]
    | false => simp [ha, List.filter_cons, ih]

theorem filter_prune (hpq : ∀ a, p a = true → q a = true) (l : List α) :
    (prune p cap l).filter q = prune p cap (l.filter q) := by
  have hcount : (l.filter q).countP p = l.countP p := by
    rw [List.countP_filter]
    exact List.countP_congr fun a _ => by simpa using hpq a
  rw [prune_eq, prune_eq, hcount]
  exact ((Function.Semiconj.iterate_right (filter_eraseP hpq)) _).eq l

theorem filter_prune_of_disjoint (hpq : ∀ a, p a = true → q a = false) (l : List α) :
    (prune p cap l).filter q = l.filter q := by
  rw [prune_eq]
  induction l.countP p - cap with
  | zero => rfl
  | succ n ih => rw [Function.iterate_succ_apply', filter_eraseP_of_disjoint hpq, ih]

theorem filter_modifyFirst (hpq : ∀ a, p a = true → q a = true)
    (hf : ∀ a, p a = true → q (f a) = true) {l' : List α} (h : modifyFirst p f l = some l') :
    modifyFirst p f (l.filter q) = some (l'.filter q) := by
  obtain ⟨t, a, r, rfl, ht, ha, rfl⟩ := modifyFirst_eq_some_iff.1 h
  have hq : ∀ b ∈ t.filter q, p b = false := fun b hb => ht b (List.mem_of_mem_filter hb)
  simpa [hpq a ha, hf a ha] using modifyFirst_append (f := f) (r := r.filter q) hq ha

theorem filter_modifyFirst_of_disjoint (hpq : ∀ a, p a = true → q a = false)
    (hf : ∀ a, p a = true → q (f a) = false) {l' : List α} (h : modifyFirst p f l = some l') :
    l'.filter q = l.filter q := by
  obtain ⟨t, a, r, rfl, -, ha, rfl⟩ := modifyFirst_eq_some_iff.1 h
  simp [hpq a ha, hf a ha]

end Lib.SharedLedger
