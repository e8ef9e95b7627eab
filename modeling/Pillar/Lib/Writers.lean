import Pillar.Lib.Delimited

/-!
# Writers whose text can be split off

A writer puts a value down as a list of symbols. If what it has written can be told
from whatever follows it, writers can be put one after the other without a loss.
-/

namespace Lib.Writers

variable {α β γ : Type*}

def Splits (f : α → List γ) : Prop :=
  ∀ ⦃a b : α⦄ ⦃x y : List γ⦄, f a ++ x = f b ++ y → a = b ∧ x = y

variable {f : α → List γ}

theorem Splits.comp (hf : Splits f) {i : β → α} (hi : Function.Injective i) : Splits (f ∘ i) := by
  intro a b x y h
  obtain ⟨hab, hxy⟩ := hf h
  exact ⟨hi hab, hxy⟩

theorem Splits.literal_append (hf : Splits f) (l : List γ) : Splits fun a => l ++ f a := by
  intro a b x y h
  rw [List.append_assoc, List.append_assoc] at h
  exact hf (List.append_cancel_left h)

/-! ## Words of a table -/

/-- Replace a symbol by its word in a table, if it has one. -/
def codeOf [DecidableEq γ] (table : List (γ × List γ)) (c : γ) : List γ := (table.lookup c).getD [c]

/-- No word of the table starts another, and a symbol that starts a word has a word itself. -/
structure Codes [DecidableEq γ] (table : List (γ × List γ)) : Prop where
  /-- A word that starts another is the word of the same symbol. -/
  apart : ∀ e ∈ table, ∀ e' ∈ table, e.2 <+: e'.2 → e.1 = e'.1
  /-- A word is not empty, and the symbol it starts with is replaced. -/
  escaped : ∀ e ∈ table, ∃ c ∈ e.2.head?, (table.lookup c).isSome = true

theorem mem_of_lookup_eq_some [BEq γ] [LawfulBEq γ] {table : List (γ × β)} {c : γ} {w : β}
    (h : table.lookup c = some w) : (c, w) ∈ table := by
  obtain ⟨l₁, l₂, rfl, -⟩ := List.lookup_eq_some_iff.1 h
  exact List.mem_append_right _ List.mem_cons_self

section

variable [DecidableEq γ] {table : List (γ × List γ)}

theorem Codes.ne_head (h : Codes table) {c d : γ} {w x : List γ} (hc : table.lookup c = none)
    (hd : table.lookup d = some w) {y : List γ} : c :: x ≠ w ++ y := by
  obtain ⟨e, he, hsome⟩ := h.escaped (d, w) (mem_of_lookup_eq_some hd)
  intro heq
  cases w with
  | nil => cases he
  | cons first rest =>
    have hce : c = first := (List.cons.inj heq).1
    have hfirst : first = e := Option.some.inj he
    rw [← hfirst, ← hce, hc] at hsome
    cases hsome

theorem splits_of_codes (h : Codes table) : Splits (codeOf table) := by
  intro a b x y heq
  rw [codeOf, codeOf] at heq
  cases ha : table.lookup a with
  | none =>
    cases hb : table.lookup b with
    | none =>
      rw [ha, hb] at heq
      exact List.cons.inj heq
    | some w =>
      rw [ha, hb] at heq
      exact absurd heq (h.ne_head ha hb)
  | some v =>
    cases hb : table.lookup b with
    | none =>
      rw [ha, hb] at heq
      exact absurd heq.symm (h.ne_head hb ha)
    | some w =>
      rw [ha, hb, Option.getD_some, Option.getD_some] at heq
      have hab : a = b := by
        rcases List.prefix_or_prefix_of_prefix (List.prefix_append v x)
          (heq ▸ List.prefix_append w y) with hvw | hwv
        · exact h.apart _ (mem_of_lookup_eq_some ha) _ (mem_of_lookup_eq_some hb) hvw
        · exact (h.apart _ (mem_of_lookup_eq_some hb) _ (mem_of_lookup_eq_some ha) hwv).symm
      subst hab
      rw [ha] at hb
      obtain rfl := Option.some.inj hb
      exact ⟨rfl, List.append_cancel_left heq⟩

end

/-! ## Lists -/

theorem Splits.flatMap_concat (hf : Splits f) {stop : γ} (hstop : ∀ a x y, f a ++ x ≠ stop :: y) :
    Splits fun l : List α => l.flatMap f ++ [stop] := by
  intro l m
  induction l generalizing m with
  | nil =>
    intro x y h
    cases m with
    | nil => exact ⟨rfl, (List.cons.inj h).2⟩
    | cons b m =>
      simp only [List.flatMap_nil, List.flatMap_cons, List.append_assoc] at h
      exact absurd h.symm (hstop b _ _)
  | cons a l ih =>
    intro x y h
    cases m with
    | nil =>
      simp only [List.flatMap_nil, List.flatMap_cons, List.append_assoc] at h
      exact absurd h (hstop a _ _)
    | cons b m =>
      simp only [List.flatMap_cons, List.append_assoc] at h
      obtain ⟨rfl, hrest⟩ := hf h
      obtain ⟨rfl, hxy⟩ := ih (by simpa using hrest)
      exact ⟨rfl, hxy⟩

/-! ## Numerals -/

theorem decimal_append_inj {m n : ℕ} {x y : List Char} (hx : ∀ c ∈ x.head?, c.isDigit = false)
    (hy : ∀ c ∈ y.head?, c.isDigit = false)
    (h : Nat.toDigits 10 m ++ x = Nat.toDigits 10 n ++ y) : m = n ∧ x = y := by
  have hdigits : ∀ (k : ℕ) (z : List Char), (∀ c ∈ z.head?, c.isDigit = false) →
      (Nat.toDigits 10 k ++ z).takeWhile Char.isDigit = Nat.toDigits 10 k := by
    intro k z hz
    rw [List.takeWhile_append_of_pos fun c => Delimited.isDigit_of_mem_decimal]
    cases z with
    | nil => simp
    | cons c z => simp [hz c rfl]
  have hmn : Nat.toDigits 10 m = Nat.toDigits 10 n := by
    rw [← hdigits m x hx, h, hdigits n y hy]
  rw [hmn] at h
  refine ⟨?_, List.append_cancel_left h⟩
  rw [← @Nat.ofDigitChars_ten_toDigits m, hmn, Nat.ofDigitChars_ten_toDigits]

end Lib.Writers
