import Mathlib

/-!
# Runs of a step function

A stateful component is modelled by a step function `σ → α → σ`; a run is the list of actions taken.

* `exec_inv` — **the invariant rule**: what every step keeps, every run keeps.
* `throughout_iff_along` — **the exact rule**: when a step keeps `I` precisely under the condition
  `C`, a run stays inside `I` precisely when all of its steps meet `C`.
-/

namespace Lib.Runs

variable {σ α : Type*} (step : σ → α → σ)

def exec (s : σ) (l : List α) : σ := l.foldl step s

@[simp] theorem exec_nil (s : σ) : exec step s [] = s := rfl

@[simp] theorem exec_cons (s : σ) (a : α) (l : List α) :
    exec step s (a :: l) = exec step (step s a) l := rfl

theorem exec_append (s : σ) (l₁ l₂ : List α) :
    exec step s (l₁ ++ l₂) = exec step (exec step s l₁) l₂ := by
  simp [exec]

@[simp] theorem exec_concat (s : σ) (l : List α) (a : α) :
    exec step s (l ++ [a]) = step (exec step s l) a := by
  simp [exec]

def Throughout (I : σ → Prop) (s : σ) (l : List α) : Prop :=
  ∀ p, p <+: l → I (exec step s p)

def Along (C : σ → α → Prop) (s : σ) (l : List α) : Prop :=
  ∀ p a, p ++ [a] <+: l → C (exec step s p) a

variable {step}

/-! ## Runs one step at a time -/

variable {I : σ → Prop} {s : σ}

theorem throughout_nil : Throughout step I s [] ↔ I s := by
  refine ⟨fun h => h [] List.nil_prefix, fun h p hp => ?_⟩
  obtain rfl := List.prefix_nil.1 hp
  exact h

variable {l : List α}

theorem throughout_cons {a : α} :
    Throughout step I s (a :: l) ↔ I s ∧ Throughout step I (step s a) l := by
  constructor
  · intro h
    exact ⟨h [] List.nil_prefix, fun p hp => h (a :: p) ((List.prefix_cons_inj a).2 hp)⟩
  · rintro ⟨hs, h⟩ p hp
    cases p with
    | nil => exact hs
    | cons b p =>
      obtain ⟨rfl, hp'⟩ := List.cons_prefix_cons.1 hp
      exact h p hp'

variable {C : σ → α → Prop}

theorem along_nil : Along step C s [] := by
  intro p a hp
  simp at hp

theorem along_cons {a : α} : Along step C s (a :: l) ↔ C s a ∧ Along step C (step s a) l := by
  constructor
  · intro h
    refine ⟨h [] a (by simp), fun p b hp => ?_⟩
    exact h (a :: p) b ((List.prefix_cons_inj a).2 hp)
  · rintro ⟨ha, h⟩ p b hp
    cases p with
    | nil =>
      obtain ⟨rfl, -⟩ := List.cons_prefix_cons.1 hp
      exact ha
    | cons c p =>
      obtain ⟨rfl, hp'⟩ := List.cons_prefix_cons.1 hp
      exact h p b hp'

theorem along_append {l₁ l₂ : List α} :
    Along step C s (l₁ ++ l₂) ↔ Along step C s l₁ ∧ Along step C (exec step s l₁) l₂ := by
  induction l₁ generalizing s with
  | nil => simp [along_nil]
  | cons a l₁ ih => rw [List.cons_append, along_cons, along_cons, ih, exec_cons, and_assoc]

theorem Along.between {p q : List α} (h : Along step C s l) (hpq : p ++ q <+: l) :
    Along step C (exec step s p) q := by
  obtain ⟨r, rfl⟩ := hpq
  exact (along_append.1 (along_append.1 h).1).2

/-- Whether a run meets `C` at every step can be evaluated. -/
instance decidableAlong {C : σ → α → Prop} [∀ s a, Decidable (C s a)] :
    (s : σ) → (l : List α) → Decidable (Along step C s l)
  | _, [] => isTrue along_nil
  | s, a :: l =>
    have := decidableAlong (C := C) (step s a) l
    decidable_of_iff (C s a ∧ Along step C (step s a) l) along_cons.symm

/-! ## From steps to runs -/

theorem exec_inv (hstep : ∀ s a, I s → I (step s a)) (hs : I s) (l : List α) :
    I (exec step s l) := by
  induction l generalizing s with
  | nil => exact hs
  | cons a l ih => exact ih (hstep s a hs)

theorem throughout_of_along (hstep : ∀ s a, I s → C s a → I (step s a)) (hs : I s)
    (hC : Along step C s l) : Throughout step I s l := by
  intro p
  induction p using List.reverseRecOn with
  | nil => intro _; exact hs
  | append_singleton p a ih =>
    intro hp
    rw [exec_concat]
    exact hstep _ _ (ih ((List.prefix_append p [a]).trans hp)) (hC p a hp)

theorem along_congr {D : σ → α → Prop} (hstep : ∀ s a, I s → C s a → I (step s a))
    (hCD : ∀ s a, I s → (C s a ↔ D s a)) (hs : I s) (l : List α) :
    Along step C s l ↔ Along step D s l := by
  induction l generalizing s with
  | nil => exact iff_of_true along_nil along_nil
  | cons a l ih =>
    rw [along_cons, along_cons, ← hCD s a hs]
    exact and_congr_right fun ha => ih (hstep s a hs ha)

/-- **The exact rule.** -/
theorem throughout_iff_along {J : σ → Prop} (hJ : ∀ s, ∀ a ∈ l, J s → I s → J (step s a))
    (hstep : ∀ s, ∀ a ∈ l, J s → I s → (I (step s a) ↔ C s a)) (hsJ : J s) (hsI : I s) :
    Throughout step I s l ↔ Along step C s l := by
  induction l generalizing s with
  | nil => exact ⟨fun _ => along_nil, fun _ => throughout_nil.2 hsI⟩
  | cons a l ih =>
    have ha : a ∈ a :: l := List.mem_cons_self
    have ih' := fun h => ih (fun s b hb => hJ s b (List.mem_cons_of_mem a hb))
      (fun s b hb => hstep s b (List.mem_cons_of_mem a hb)) (hJ s a ha hsJ hsI) h
    rw [throughout_cons, along_cons, ← hstep s a ha hsJ hsI]
    constructor
    · rintro ⟨-, h⟩
      have hI : I (step s a) := h [] List.nil_prefix
      exact ⟨hI, (ih' hI).1 h⟩
    · rintro ⟨hI, h⟩
      exact ⟨hsI, (ih' hI).2 h⟩

/-! ## What happened in a run -/

variable (step)

def Since (A B : σ → α → Prop) (s : σ) (l : List α) : Prop :=
  ∃ p a q, l = p ++ a :: q ∧ A (exec step s p) a ∧
    Along step (fun t b => ¬ B t b) (step (exec step s p) a) q

def Ever (A : σ → α → Prop) (s : σ) (l : List α) : Prop :=
  ∃ p a q, l = p ++ a :: q ∧ A (exec step s p) a

/-- After a step at which `A` happened it does not happen again. -/
def AtMostOnce (A : σ → α → Prop) (s : σ) (l : List α) : Prop :=
  ∀ p a q, l = p ++ a :: q → A (exec step s p) a → ¬ Ever step A (step (exec step s p) a) q

variable {step} {A B : σ → α → Prop} {s : σ} {l : List α} {c : α}

theorem not_since_nil : ¬ Since step A B s [] := by
  rintro ⟨p, a, q, h, -⟩
  simp at h

theorem not_ever_nil : ¬ Ever step A s [] := by
  rintro ⟨p, a, q, h, -⟩
  simp at h

theorem concat_eq_split_iff {p q : List α} {a : α} :
    l ++ [c] = p ++ a :: q ↔
      (l = p ∧ c = a ∧ q = []) ∨ ∃ q', l = p ++ a :: q' ∧ q = q' ++ [c] := by
  constructor
  · intro h
    rcases List.eq_nil_or_concat' q with rfl | ⟨q, b, rfl⟩
    · obtain ⟨rfl, hca⟩ := List.append_inj' h rfl
      exact .inl ⟨rfl, List.singleton_inj.1 hca, rfl⟩
    · rw [← List.cons_append, ← List.append_assoc] at h
      obtain ⟨rfl, hcb⟩ := List.append_inj' h rfl
      exact .inr ⟨q, rfl, by rw [List.singleton_inj.1 hcb]⟩
  · rintro (⟨rfl, rfl, rfl⟩ | ⟨q', rfl, rfl⟩)
    · rfl
    · simp

theorem since_concat :
    Since step A B s (l ++ [c]) ↔
      A (exec step s l) c ∨ Since step A B s l ∧ ¬ B (exec step s l) c := by
  constructor
  · rintro ⟨p, a, q, h, hA, hB⟩
    rcases concat_eq_split_iff.1 h with ⟨rfl, rfl, -⟩ | ⟨q, rfl, rfl⟩
    · exact .inl hA
    · obtain ⟨hq, hlast⟩ := along_append.1 hB
      refine .inr ⟨⟨p, a, q, rfl, hA, hq⟩, ?_⟩
      rw [exec_append, exec_cons]
      exact (along_cons.1 hlast).1
  · rintro (hA | ⟨⟨p, a, q, rfl, hA, hB⟩, hc⟩)
    · exact ⟨l, c, [], rfl, hA, along_nil⟩
    · refine ⟨p, a, q ++ [c], by simp, hA, along_append.2 ⟨hB, along_cons.2 ⟨?_, along_nil⟩⟩⟩
      rwa [exec_append, exec_cons] at hc

theorem ever_concat :
    Ever step A s (l ++ [c]) ↔ A (exec step s l) c ∨ Ever step A s l := by
  constructor
  · rintro ⟨p, a, q, h, hA⟩
    rcases concat_eq_split_iff.1 h with ⟨rfl, rfl, -⟩ | ⟨q, rfl, rfl⟩
    · exact .inl hA
    · exact .inr ⟨p, a, q, rfl, hA⟩
  · rintro (hA | ⟨p, a, q, rfl, hA⟩)
    · exact ⟨l, c, [], rfl, hA⟩
    · exact ⟨p, a, q ++ [c], by simp, hA⟩

theorem not_ever_iff_along : ¬ Ever step A s l ↔ Along step (fun s a => ¬ A s a) s l := by
  constructor
  · rintro h p a ⟨q, rfl⟩ hA
    exact h ⟨p, a, q, by simp, hA⟩
  · rintro h ⟨p, a, q, rfl, hA⟩
    exact h p a ⟨q, by simp⟩ hA

variable {P : σ → Prop}

theorem exec_iff_ever (hstep : ∀ s a, P (step s a) ↔ A s a ∨ P s) (hs : ¬ P s) (l : List α) :
    P (exec step s l) ↔ Ever step A s l := by
  induction l using List.reverseRecOn with
  | nil => exact iff_of_false hs not_ever_nil
  | append_singleton l c ih => rw [exec_concat, hstep, ever_concat, ih]

theorem ever_of_exec (hI : ∀ s a, I s → I (step s a))
    (hstep : ∀ s a, I s → P (step s a) → A s a ∨ P s) (hs : I s) (hP : ¬ P s) (l : List α)
    (h : P (exec step s l)) : Ever step A s l := by
  induction l using List.reverseRecOn with
  | nil => exact absurd h hP
  | append_singleton l c ih =>
    rw [exec_concat] at h
    rw [ever_concat]
    exact (hstep _ c (exec_inv hI hs l) h).imp_right ih

theorem exec_of_ever {D : σ → Prop} (hI : ∀ s a, I s → I (step s a))
    (hbring : ∀ s a, I s → A s a → D (step s a)) (hD : ∀ s a, D s → D (step s a)) (hs : I s)
    (h : Ever step A s l) : D (exec step s l) := by
  obtain ⟨p, a, q, rfl, hA⟩ := h
  rw [exec_append, exec_cons]
  exact exec_inv hD (hbring _ a (exec_inv hI hs p) hA) q

theorem since_of_exec (hI : ∀ s a, I s → I (step s a))
    (hstep : ∀ s a, I s → P (step s a) → A s a ∨ P s ∧ ¬ B s a) (hs : I s) (hP : ¬ P s) (l : List α)
    (h : P (exec step s l)) : Since step A B s l := by
  induction l using List.reverseRecOn with
  | nil => exact absurd h hP
  | append_singleton l c ih =>
    rw [exec_concat] at h
    rw [since_concat]
    exact (hstep _ c (exec_inv hI hs l) h).imp_right fun hbefore => ⟨ih hbefore.1, hbefore.2⟩

theorem not_ever_of_inv (hI : ∀ s a, I s → I (step s a)) (hA : ∀ s a, I s → ¬ A s a) (hs : I s)
    (l : List α) : ¬ Ever step A s l := by
  rintro ⟨p, a, q, -, h⟩
  exact hA _ a (exec_inv hI hs p) h

theorem atMostOnce_of_inv {D : σ → Prop} (hI : ∀ s a, I s → I (step s a))
    (hbring : ∀ s a, I s → A s a → D (step s a)) (hD : ∀ s a, D s → D (step s a))
    (hA : ∀ s a, D s → ¬ A s a) (hs : I s) (l : List α) : AtMostOnce step A s l := by
  intro p a q _ h
  exact not_ever_of_inv hD hA (hbring _ a (exec_inv hI hs p) h) q

theorem exec_iff_sometime {Q : σ → Prop} (hI : ∀ s a, I s → I (step s a))
    (hstep : ∀ s a, I s → (P (step s a) ↔ P s ∨ Q (step s a))) (hs : I s) (hPQ : P s ↔ Q s)
    (l : List α) : P (exec step s l) ↔ ∃ p, p <+: l ∧ Q (exec step s p) := by
  induction l using List.reverseRecOn with
  | nil => simp [hPQ]
  | append_singleton l a ih =>
    have hl : I (exec step s l) := exec_inv hI hs l
    rw [exec_concat, hstep _ a hl, ih]
    constructor
    · rintro (⟨p, hp, hQ⟩ | hQ)
      · exact ⟨p, hp.trans (List.prefix_append l [a]), hQ⟩
      · exact ⟨l ++ [a], List.prefix_rfl, by rwa [exec_concat]⟩
    · rintro ⟨p, hp, hQ⟩
      rcases List.prefix_concat_iff.1 hp with rfl | hp
      · exact .inr (by rwa [exec_concat] at hQ)
      · exact .inl ⟨p, hp, hQ⟩

theorem Since.not_since (hdisjoint : ∀ s a, A s a → ¬ B s a) (h : Since step A B s l) :
    ¬ Since step B A s l := by
  induction l using List.reverseRecOn with
  | nil => exact absurd h not_since_nil
  | append_singleton l c ih =>
    rw [since_concat] at h ⊢
    rcases h with hA | ⟨h, hB⟩
    · rintro (hB | ⟨-, hnA⟩)
      · exact hdisjoint _ _ hA hB
      · exact hnA hA
    · rintro (hB' | ⟨h', -⟩)
      · exact hB hB'
      · exact ih h h'

end Lib.Runs
